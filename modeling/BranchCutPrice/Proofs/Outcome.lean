import BranchCutPrice.Action
import BranchCutPrice.Relaxation

/-!
Reasoning about actions. `act.Ensures s done refused` says what holds once `act` was
run from `s`: `done` of the result and the state reached, or `refused` of the error and
the state reached. Each rule takes an action apart along its construction.
-/

namespace BranchCutPrice.Action

variable {σ τ α β : Type}

def Ensures (act : Action σ α) (s : σ) (done : α → σ → Prop) (refused : Error → σ → Prop) :
    Prop :=
  match (act s).result with
  | .ok a => done a (act s).state
  | .error e => refused e (act s).state

variable {act : Action σ α} {s : σ} {done : α → σ → Prop} {refused : Error → σ → Prop}

theorem ensures_of_ok {a : α} (ended : (act s).result = .ok a)
    (ensured : act.Ensures s done refused) : done a (act s).state := by
  unfold Ensures at ensured
  rwa [ended] at ensured

theorem ensures_of_error {e : Error} (ended : (act s).result = .error e)
    (ensured : act.Ensures s done refused) : refused e (act s).state := by
  unfold Ensures at ensured
  rwa [ended] at ensured

/-- An action that is never refused has a result. -/
theorem ensures_never (ensured : act.Ensures s done fun _ _ => False) :
    ∃ a, (act s).result = .ok a ∧ done a (act s).state := by
  unfold Ensures at ensured
  cases ended : (act s).result with
  | ok a => exact ⟨a, rfl, by simpa only [ended] using ensured⟩
  | error e => simp only [ended] at ensured

/-- An action ends as it does when it is run. -/
theorem ensures_ran (act : Action σ α) (s : σ) :
    act.Ensures s (fun a s' => (act s).result = .ok a ∧ (act s).state = s')
      (fun e s' => (act s).result = .error e ∧ (act s).state = s') := by
  unfold Ensures
  cases ended : (act s).result with
  | ok a => exact ⟨rfl, rfl⟩
  | error e => exact ⟨rfl, rfl⟩

/-- What holds of the state reached, whatever the result is. -/
abbrev Reaches (act : Action σ α) (s : σ) (reached : σ → Prop) : Prop :=
  act.Ensures s (fun _ => reached) (fun _ => reached)

theorem reaches_iff {reached : σ → Prop} : act.Reaches s reached ↔ reached (act s).state := by
  unfold Reaches Ensures
  cases (act s).result <;> rfl

/-- What holds of the result and the state reached, if there is a result. -/
abbrev Yields (act : Action σ α) (s : σ) (done : α → σ → Prop) : Prop :=
  act.Ensures s done (fun _ _ => True)

theorem yields_iff : act.Yields s done ↔ ∀ a, (act s).result = .ok a → done a (act s).state := by
  unfold Yields Ensures
  cases (act s).result <;> simp

theorem yields_of_all (all : ∀ a s', done a s') : act.Yields s done :=
  yields_iff.2 fun a _ => all a _

theorem Ensures.imp {done' : α → σ → Prop} {refused' : Error → σ → Prop}
    (ensured : act.Ensures s done refused) (onDone : ∀ a s', done a s' → done' a s')
    (onRefused : ∀ e s', refused e s' → refused' e s') : act.Ensures s done' refused' := by
  unfold Ensures at ensured ⊢
  cases ended : (act s).result with
  | ok a => exact onDone _ _ (by simpa only [ended] using ensured)
  | error e => exact onRefused _ _ (by simpa only [ended] using ensured)

theorem Reaches.mono {reached reached' : σ → Prop} (ensured : act.Reaches s reached)
    (further : ∀ s', reached s' → reached' s') : act.Reaches s reached' :=
  ensured.imp (fun _ => further) fun _ => further

/-- What becomes of a refused action does not matter to what a result means. -/
theorem Ensures.yields {done' : α → σ → Prop} (ensured : act.Ensures s done refused)
    (onDone : ∀ a s', done a s' → done' a s') : act.Yields s done' :=
  ensured.imp onDone fun _ _ _ => trivial

theorem Ensures.and {done' : α → σ → Prop} {refused' : Error → σ → Prop}
    (first : act.Ensures s done refused) (second : act.Ensures s done' refused') :
    act.Ensures s (fun a s' => done a s' ∧ done' a s')
      (fun e s' => refused e s' ∧ refused' e s') := by
  unfold Ensures at first second ⊢
  cases ended : (act s).result with
  | ok a => simp only [ended] at first second ⊢; exact ⟨first, second⟩
  | error e => simp only [ended] at first second ⊢; exact ⟨first, second⟩

/-- What holds of the result and the state reached by an action that is never refused. -/
abbrev Completes (act : Action σ α) (s : σ) (done : α → σ → Prop) : Prop :=
  act.Ensures s done (fun _ _ => False)

namespace Completes

variable {done' : α → σ → Prop}

theorem mono (completes : act.Completes s done) (further : ∀ a s', done a s' → done' a s') :
    act.Completes s done' :=
  completes.imp further fun _ _ no => no

theorem also {refused : Error → σ → Prop} (completes : act.Completes s done)
    (ensured : act.Ensures s done' refused) :
    act.Completes s fun a s' => done a s' ∧ done' a s' :=
  (completes.and ensured).imp (fun _ _ both => both) fun _ _ both => both.1

/-- Of an action that is never refused nothing is to be shown but what its result means. -/
theorem leads {refused : Error → σ → Prop} (completes : act.Completes s done)
    (further : ∀ a s', done a s' → done' a s') : act.Ensures s done' refused :=
  completes.imp further fun _ _ no => no.elim

theorem reaches {reached : σ → Prop} (completes : act.Completes s done)
    (further : ∀ a s', done a s' → reached s') : act.Reaches s reached :=
  completes.leads further

end Completes

/-! ### Rules -/

@[simp]
theorem ensures_pure {a : α} : (pure a : Action σ α).Ensures s done refused ↔ done a s :=
  Iff.rfl

@[simp]
theorem ensures_bind {next : α → Action σ β} {done : β → σ → Prop} :
    (act >>= next).Ensures s done refused ↔
      act.Ensures s (fun a s' => (next a).Ensures s' done refused) refused := by
  unfold Ensures
  change (match ((act s).andThen next).result with
    | .ok b => done b ((act s).andThen next).state
    | .error e => refused e ((act s).andThen next).state) ↔ _
  rcases act s with ⟨result, reached, events⟩
  cases result <;> rfl

theorem Completes.bind {next : α → Action σ β} {done' : β → σ → Prop}
    (first : act.Completes s done) (second : ∀ a s', done a s' → (next a).Completes s' done') :
    (act >>= next).Completes s done' :=
  ensures_bind.2 (first.imp second fun _ _ no => no)

@[simp]
theorem ensures_throw {e : Error} :
    (throw e : Action σ α).Ensures s done refused ↔ refused e s :=
  Iff.rfl

@[simp]
theorem ensures_get {done : σ → σ → Prop} :
    (get : Action σ σ).Ensures s done refused ↔ done s s :=
  Iff.rfl

@[simp]
theorem ensures_modify {f : σ → σ} {done : Unit → σ → Prop} :
    (modify f : Action σ Unit).Ensures s done refused ↔ done () (f s) :=
  Iff.rfl

@[simp]
theorem ensures_modifyGet {f : σ → α × σ} :
    (modifyGet f : Action σ α).Ensures s done refused ↔ done (f s).1 (f s).2 :=
  Iff.rfl

theorem ensures_read {look : σ → Except Error α} :
    (read look).Ensures s done refused ↔
      (∀ a, look s = .ok a → done a s) ∧ ∀ e, look s = .error e → refused e s := by
  unfold Ensures read
  cases look s <;> simp

theorem ensures_change {step : σ → Except Error σ} {done : Unit → σ → Prop} :
    (change step).Ensures s done refused ↔
      (∀ s', step s = .ok s' → done () s') ∧ ∀ e, step s = .error e → refused e s := by
  unfold Ensures change
  cases step s <;> simp

theorem yields_read {look : σ → Except Error α} :
    (read look).Yields s done ↔ ∀ a, look s = .ok a → done a s := by
  unfold Yields
  rw [ensures_read]
  simp only [implies_true, and_true]

/-- What is found can be gone on with. -/
theorem Completes.of_read {look : σ → Except Error α} {a : α} (found : look s = .ok a)
    {next : α → Action σ β} {done : β → σ → Prop} (completes : (next a).Completes s done) :
    (read look >>= next).Completes s done := by
  apply ensures_bind.2
  apply ensures_read.2
  constructor
  · intro _ same
    cases found.symm.trans same
    exact completes
  · intro _ refused
    cases found.symm.trans refused

theorem yields_change {step : σ → Except Error σ} {done : Unit → σ → Prop} :
    (change step).Yields s done ↔ ∀ s', step s = .ok s' → done () s' := by
  unfold Yields
  rw [ensures_change]
  simp only [implies_true, and_true]

@[simp]
theorem ensures_emit {event : Event} {done : Unit → σ → Prop} :
    (emit event : Action σ Unit).Ensures s done refused ↔ done () s :=
  Iff.rfl

@[simp]
theorem ensures_emitIf {condition : Bool} {event : Event} {done : Unit → σ → Prop} :
    (emitIf condition event : Action σ Unit).Ensures s done refused ↔ done () s := by
  cases condition <;> rfl

@[simp]
theorem ensures_attempt {done : Except Error α → σ → Prop} :
    (attempt act).Ensures s done refused ↔
      act.Ensures s (fun a => done (.ok a)) (fun e => done (.error e)) := by
  unfold Ensures attempt
  cases ended : (act s).result <;> simp only [ended]

@[simp]
theorem ensures_resume_ok {a : α} :
    (resume (.ok a) : Action σ α).Ensures s done refused ↔ done a s :=
  Iff.rfl

@[simp]
theorem ensures_resume_error {e : Error} :
    (resume (.error e) : Action σ α).Ensures s done refused ↔ refused e s :=
  Iff.rfl

@[simp]
theorem ensures_run {part : Part τ σ} {s : τ} {done : α → τ → Prop} {refused : Error → τ → Prop} :
    (part.run act).Ensures s done refused ↔
      act.Ensures (part.get s) (fun a t => done a (part.set s t))
        (fun e t => refused e (part.set s t)) :=
  Iff.rfl

@[simp]
theorem ensures_onLp {act : Action Relaxation α} {s : Linked τ} {done : α → Linked τ → Prop}
    {refused : Error → Linked τ → Prop} :
    (onLp act).Ensures s done refused ↔
      act.Ensures s.lp (fun a lp => done a ⟨s.own, lp⟩) (fun e lp => refused e ⟨s.own, lp⟩) :=
  Iff.rfl

@[simp]
theorem ensures_onOwn {act : Action τ α} {s : Linked τ} {done : α → Linked τ → Prop}
    {refused : Error → Linked τ → Prop} :
    (onOwn act).Ensures s done refused ↔
      act.Ensures s.own (fun a own => done a ⟨own, s.lp⟩) (fun e own => refused e ⟨own, s.lp⟩) :=
  Iff.rfl

/-- Going through a list: `before rest` holds while `rest` is still to come. -/
theorem ensures_forM {f : β → Action σ PUnit} (before : List β → σ → Prop)
    (step : ∀ b rest s, before (b :: rest) s → (f b).Ensures s (fun _ => before rest) refused)
    (items : List β) (start : before items s) :
    (items.forM f).Ensures s (fun _ => before []) refused := by
  induction items generalizing s with
  | nil => exact start
  | cons b rest ih =>
    change (f b >>= fun _ => rest.forM f).Ensures s _ _
    rw [ensures_bind]
    exact (step b rest s start).imp (fun _ _ reached => ih reached) (fun _ _ no => no)

/-- Going through a list is not refused, if what is still to come stays ready. -/
theorem completes_forM {f : β → Action σ PUnit} {keeps : σ → Prop} {ready : β → σ → Prop}
    (each : ∀ b s, keeps s → ready b s → (f b).Completes s fun _ s' =>
      keeps s' ∧ ∀ other, ready other s → ready other s')
    (items : List β) (start : keeps s) (all : ∀ b ∈ items, ready b s) :
    (items.forM f).Completes s fun _ => keeps := by
  let before (rest : List β) (s : σ) : Prop := keeps s ∧ ∀ b ∈ rest, ready b s
  have step (b : β) (rest : List β) (s : σ) (reached : before (b :: rest) s) :
      (f b).Completes s fun _ => before rest := by
    obtain ⟨kept, ahead⟩ := reached
    apply (each b s kept (ahead b List.mem_cons_self)).mono
    intro _ s' done
    exact ⟨done.1, fun other later => done.2 other (ahead other (List.mem_cons_of_mem b later))⟩
  exact Completes.mono (ensures_forM before step items ⟨start, all⟩) fun _ _ done => done.1

/-- Going through a list deals with all of it, if what was dealt with stays so. -/
theorem yields_forM {f : β → Action σ PUnit} {keeps : σ → Prop} {dealt : β → σ → Prop}
    (each : ∀ b s, keeps s → (f b).Yields s fun _ s' =>
      keeps s' ∧ dealt b s' ∧ ∀ other, dealt other s → dealt other s')
    (items : List β) (start : keeps s) :
    (items.forM f).Yields s fun _ s' => keeps s' ∧ ∀ b ∈ items, dealt b s' := by
  let before (rest : List β) (s : σ) : Prop := keeps s ∧ ∀ b ∈ items, b ∈ rest ∨ dealt b s
  have step (b : β) (rest : List β) (s : σ) (reached : before (b :: rest) s) :
      (f b).Yields s fun _ => before rest := by
    obtain ⟨kept, others⟩ := reached
    apply (each b s kept).yields
    intro _ s' done
    obtain ⟨kept', here, stays⟩ := done
    refine ⟨kept', fun other member => ?_⟩
    obtain waits | earlier := others other member
    · obtain rfl | later := List.mem_cons.1 waits
      · exact .inr here
      · exact .inl later
    · exact .inr (stays other earlier)
  apply (ensures_forM before step items ⟨start, fun _ => .inl⟩).yields
  intro _ s' done
  refine ⟨done.1, fun b member => ?_⟩
  obtain waits | dealt := done.2 b member
  · exact absurd waits List.not_mem_nil
  · exact dealt

end BranchCutPrice.Action
