import BranchCutPrice.Error
import BranchCutPrice.Event

/-!
Operations that change a state, may be refused, and report events. A refusal
keeps what was done before it: the outcome carries the state reached in either
case.
-/

namespace BranchCutPrice

structure Outcome (σ α : Type) where
  result : Except Error α
  state : σ
  events : List Event

def Action (σ α : Type) : Type :=
  σ → Outcome σ α

/-- What happened, after some earlier events. -/
def Outcome.after {σ α : Type} (earlier : List Event) (done : Outcome σ α) : Outcome σ α :=
  ⟨done.result, done.state, earlier ++ done.events⟩

/-- Goes on from an outcome, unless that was a refusal. -/
def Outcome.andThen {σ α β : Type} (next : α → Action σ β) : Outcome σ α → Outcome σ β
  | ⟨.error e, s, events⟩ => ⟨.error e, s, events⟩
  | ⟨.ok a, s, events⟩ => (next a s).after events

namespace Action

variable {σ τ α β : Type}

def run (act : Action σ α) (s : σ) : Outcome σ α :=
  act s

instance : Monad (Action σ) where
  pure a := fun s => ⟨.ok a, s, []⟩
  bind act next := fun s => (act s).andThen next

instance : MonadStateOf σ (Action σ) where
  get := fun s => ⟨.ok s, s, []⟩
  set s := fun _ => ⟨.ok (), s, []⟩
  modifyGet f := fun s => ⟨.ok (f s).1, (f s).2, []⟩

instance : MonadExceptOf Error (Action σ) where
  throw e := fun s => ⟨.error e, s, []⟩
  tryCatch act handler := fun s =>
    match act s with
    | ⟨.ok a, s', events⟩ => ⟨.ok a, s', events⟩
    | ⟨.error e, s', events⟩ => (handler e s').after events

private theorem bind_pure_eq (act : Action σ α) (s : σ) : (act s).andThen pure = act s := by
  rcases act s with ⟨result, reached, events⟩
  cases result <;> simp [Outcome.andThen, Outcome.after, pure]

private theorem bind_assoc_eq {γ : Type} (act : Action σ α) (next : α → Action σ β)
    (last : β → Action σ γ) (s : σ) :
    ((act s).andThen next).andThen last = (act s).andThen fun a s => (next a s).andThen last := by
  rcases act s with ⟨result, reached, events⟩
  cases result with
  | error e => rfl
  | ok a =>
    simp only [Outcome.andThen]
    rcases next a reached with ⟨second, final, later⟩
    cases second <;> simp [Outcome.after]

instance : LawfulMonad (Action σ) :=
  LawfulMonad.mk' (Action σ) (fun act => funext fun s => bind_pure_eq act s) (fun _ _ => rfl)
    (fun act next last => funext fun s => bind_assoc_eq act next last s)

/-- Reports an event. -/
def emit (event : Event) : Action σ Unit := fun s =>
  ⟨.ok (), s, [event]⟩

/-- Reports an event if a condition holds. -/
def emitIf (condition : Bool) (event : Event) : Action σ Unit :=
  if condition then emit event else pure ()

/-- Reads the state, or is refused. -/
def read (look : σ → Except Error α) : Action σ α := fun s =>
  ⟨look s, s, []⟩

/-- Changes the state all at once, or is refused and leaves it as it was. -/
def change (step : σ → Except Error σ) : Action σ Unit := fun s =>
  match step s with
  | .ok s' => ⟨.ok (), s', []⟩
  | .error e => ⟨.error e, s, []⟩

/-- Runs an action and hands over its result, even a refusal. -/
def attempt (act : Action σ α) : Action σ (Except Error α) := fun s =>
  let done := act s
  ⟨.ok done.result, done.state, done.events⟩

/-- Takes up a result that was handed over by `attempt`. -/
def resume (result : Except Error α) : Action σ α := fun s =>
  ⟨result, s, []⟩

end Action

/-- A part of a larger state: how to read it and how to put it back. -/
structure Part (σ τ : Type) where
  get : σ → τ
  set : σ → τ → σ

/-- Runs an action on a part of the state. -/
def Part.run {σ τ α : Type} (part : Part σ τ) (act : Action τ α) : Action σ α := fun s =>
  let done := act (part.get s)
  ⟨done.result, part.set s done.state, done.events⟩

/-- Two parts side by side. -/
def Part.pair {σ τ υ : Type} (left : Part σ τ) (right : Part σ υ) : Part σ (τ × υ) where
  get s := (left.get s, right.get s)
  set s pair := right.set (left.set s pair.1) pair.2

end BranchCutPrice
