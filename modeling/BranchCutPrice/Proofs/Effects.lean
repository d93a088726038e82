import BranchCutPrice.Proofs.Client
import Mathlib.Order.Defs.Unbundled

/-!
What actions may do to their states, as relations between the state before and the state
reached, refused or not. Rules for the ways in which actions are put together leave a statement
only for the steps that write to the state.
-/

namespace BranchCutPrice.Action

variable {σ τ α β : Type}

/-- An action leads to related states only, even if it is refused. -/
def Respects (act : Action σ α) (R : σ → σ → Prop) : Prop :=
  ∀ s, act.Reaches s (R s)

variable {act : Action σ α} {R : σ → σ → Prop}

theorem Respects.mono {R' : σ → σ → Prop} (respects : act.Respects R)
    (weaker : ∀ s s', R s s' → R' s s') : act.Respects R' :=
  fun s => (respects s).mono (weaker s)

theorem Respects.and {R' : σ → σ → Prop} (first : act.Respects R) (second : act.Respects R') :
    act.Respects fun s s' => R s s' ∧ R' s s' :=
  fun s => (first s).and (second s)

theorem respects_modify {f : σ → σ} (step : ∀ s, R s (f s)) :
    (modify f : Action σ Unit).Respects R :=
  step

/-- A change that looks something up first. -/
theorem related_of_bind {first : Except Error β} {next : β → σ} {s s' : σ}
    (changed : (first >>= fun b => pure (next b)) = .ok s') (related : ∀ b, R s (next b)) :
    R s s' := by
  cases first with
  | error e => cases changed
  | ok b =>
    cases changed
    exact related b

/-- The relation between two states that the second has a property if the first has it. -/
def Keeping (holds : σ → Prop) (s s' : σ) : Prop :=
  holds s → holds s'

instance (holds : σ → Prop) : Std.Refl (Keeping holds) where
  refl _ held := held

instance (holds : σ → Prop) : IsTrans σ (Keeping holds) where
  trans _ _ _ first second held := second (first held)

theorem Respects.keeps {holds : σ → Prop} (keeps : act.Respects (Keeping holds)) {s : σ}
    (held : holds s) : act.Reaches s holds :=
  (keeps s).mono fun _ keeps => keeps held

/-! ### Actions that leave the state as it is -/

section Refl

variable [Std.Refl R]

theorem respects_pure (a : α) : (pure a : Action σ α).Respects R :=
  refl_of R

theorem respects_throw (e : Error) : (throw e : Action σ α).Respects R :=
  refl_of R

theorem respects_get : (get : Action σ σ).Respects R :=
  refl_of R

theorem respects_emit (event : Event) : (emit event : Action σ Unit).Respects R :=
  refl_of R

theorem respects_emitIf (condition : Bool) (event : Event) :
    (emitIf condition event : Action σ Unit).Respects R :=
  fun s => ensures_emitIf.2 (refl_of R s)

theorem respects_read (look : σ → Except Error α) : (read look).Respects R :=
  fun s => ensures_read.2 ⟨fun _ _ => refl_of R s, fun _ _ => refl_of R s⟩

theorem respects_resume (result : Except Error α) : (resume result : Action σ α).Respects R := by
  cases result with
  | ok a => exact refl_of R
  | error e => exact refl_of R

theorem respects_change {step : σ → Except Error σ}
    (each : ∀ s s', step s = .ok s' → R s s') : (change step).Respects R :=
  fun s => ensures_change.2 ⟨each s, fun _ _ => refl_of R s⟩

/-- What was read is still so when it is used. -/
theorem Respects.of_read {look : σ → Except Error α} {next : α → Action σ β}
    (after : ∀ s a, look s = .ok a → (next a).Reaches s (R s)) :
    (read look >>= next).Respects R := by
  intro s
  apply ensures_bind.2
  apply ensures_read.2
  exact ⟨after s, fun _ _ => refl_of R s⟩

end Refl

/-! ### Actions made of others -/

namespace Respects

/-- An action after others. -/
theorem after [IsTrans σ R] (respects : act.Respects R) {s s' : σ} (earlier : R s s') :
    act.Reaches s' (R s) :=
  (respects s').mono fun _ later => trans_of R earlier later

theorem bind [IsTrans σ R] {next : α → Action σ β} (first : act.Respects R)
    (second : ∀ a, (next a).Respects R) : (act >>= next).Respects R := by
  intro s
  apply ensures_bind.2
  apply (first s).imp
  · intro a _ reached
    exact (second a).after reached
  · intro _ _ reached
    exact reached

theorem discard (respects : act.Respects R) : (discard act : Action σ Unit).Respects R :=
  fun s => discard_reaches.2 (respects s)

theorem attempt (respects : act.Respects R) : act.attempt.Respects R :=
  fun s => ensures_attempt.2 (respects s)

theorem forM [Std.Refl R] [IsTrans σ R] {f : β → Action σ PUnit}
    (each : ∀ b, (f b).Respects R) (items : List β) : (items.forM f).Respects R := by
  intro s
  refine ensures_forM (fun _ => R s) ?_ items (refl_of R s)
  intro b _ _ reached
  exact (each b).after reached

/-- An action on a part of the state. -/
theorem run {part : Part τ σ} {R' : τ → τ → Prop} (respects : act.Respects R)
    (lift : ∀ t s, R (part.get t) s → R' t (part.set t s)) : (part.run act).Respects R' :=
  fun t => ensures_run.2 ((respects (part.get t)).mono (lift t))

end Respects

/-- An action on a part that the relation does not depend on. -/
theorem respects_apart {part : Part τ σ} {R : τ → τ → Prop} (act : Action σ α)
    (apart : ∀ t s, R t (part.set t s)) : (part.run act).Respects R :=
  fun t => reaches_iff.2 (apart t _)

end BranchCutPrice.Action
