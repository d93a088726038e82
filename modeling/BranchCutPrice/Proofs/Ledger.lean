import BranchCutPrice.Proofs.Loading

/-!
Structures that hold objects of a relaxation. A state is settled if its relaxation is
balanced against what its structures hold and what is owed elsewhere. An action on a part
of a state need not know the rest: what the other parts hold is owed elsewhere to it.
-/

namespace BranchCutPrice

/-- A structure whose captures are accounted for. -/
class Holder (τ : Type) where
  holdings : τ → Holdings

/-- A state with a relaxation and structures that hold objects of it. -/
class Ledger (σ : Type) where
  lp : σ → Relaxation
  held : σ → Holdings

/-- Whoever keeps an account of captures holds what is on it. -/
instance : Holder Holdings where
  holdings account := account

instance {τ υ : Type} [Holder τ] [Holder υ] : Holder (τ × υ) where
  holdings pair := Holder.holdings pair.1 + Holder.holdings pair.2

instance {τ : Type} [Holder τ] : Ledger (Linked τ) where
  lp s := s.lp
  held s := Holder.holdings s.own

def Settled {σ : Type} [Ledger σ] (s : σ) (owed : Holdings) : Prop :=
  (Ledger.lp s).Balanced (owed + Ledger.held s)

namespace Settled

variable {τ : Type} [Holder τ] {own own' : τ} {lp : Relaxation} {owed : Holdings}

/-- What a structure captured is no longer owed elsewhere. -/
theorem take {captured : Holdings} (settled : Settled (Linked.mk own lp) (owed + captured))
    (holds : Holder.holdings own' = Holder.holdings own + captured) :
    Settled (Linked.mk own' lp) owed := by
  have balanced : lp.Balanced (owed + captured + Holder.holdings own) := settled
  change lp.Balanced (owed + Holder.holdings own')
  rw [holds, ← add_assoc, add_right_comm]
  exact balanced

/-- What a structure lets go of is owed elsewhere. -/
theorem give {released : Holdings} (settled : Settled (Linked.mk own lp) owed)
    (holds : Holder.holdings own' + released = Holder.holdings own) :
    Settled (Linked.mk own' lp) (owed + released) := by
  have balanced : lp.Balanced (owed + Holder.holdings own) := settled
  change lp.Balanced (owed + released + Holder.holdings own')
  rw [add_assoc, add_comm released, holds]
  exact balanced

theorem congr (settled : Settled (Linked.mk own lp) owed)
    (holds : Holder.holdings own' = Holder.holdings own) : Settled (Linked.mk own' lp) owed := by
  have balanced : lp.Balanced (owed + Holder.holdings own) := settled
  change lp.Balanced (owed + Holder.holdings own')
  rw [holds]
  exact balanced

end Settled

/-- Setting a part of a state leaves what its other parts hold. -/
structure Part.Frames {σ τ : Type} [Ledger σ] [Ledger τ] (part : Part σ τ) : Prop where
  lp_get : ∀ s, Ledger.lp (part.get s) = Ledger.lp s
  lp_set : ∀ s t, Ledger.lp (part.set s t) = Ledger.lp t
  rest : ∀ s, ∃ rest, Ledger.held s = rest + Ledger.held (part.get s) ∧
    ∀ t, Ledger.held (part.set s t) = rest + Ledger.held t

namespace Part.Frames

variable {σ τ α : Type} [Ledger σ] [Ledger τ] {part : Part σ τ} {act : Action τ α} {s : σ}
  {owed : Holdings}

/-- To an action on a part of a settled state the rest of the state is owed elsewhere. -/
theorem enter (frames : part.Frames) (settled : Settled s owed) :
    ∃ rest, Settled (part.get s) (owed + rest) ∧
      ∀ t more, Settled t (owed + rest + more) → Settled (part.set s t) (owed + more) := by
  obtain ⟨rest, here, there⟩ := frames.rest s
  refine ⟨rest, ?_, fun t more inside => ?_⟩
  · unfold Settled at settled ⊢
    rw [frames.lp_get, add_assoc, ← here]
    exact settled
  · unfold Settled at inside ⊢
    have sum : owed + more + (rest + Ledger.held t) = owed + rest + more + Ledger.held t := by
      abel
    rw [frames.lp_set, there, sum]
    exact inside

theorem ensures (frames : part.Frames) (settled : Settled s owed) {done : α → τ → Prop}
    {refused : Error → τ → Prop}
    (keeps : ∀ owed, Settled (part.get s) owed → act.Ensures (part.get s)
      (fun a t => Settled t owed ∧ done a t) (fun e t => Settled t owed ∧ refused e t)) :
    (part.run act).Ensures s
      (fun a s' => Settled s' owed ∧ ∃ t, s' = part.set s t ∧ done a t)
      (fun e s' => Settled s' owed ∧ ∃ t, s' = part.set s t ∧ refused e t) := by
  obtain ⟨rest, inside, back⟩ := frames.enter settled
  have outside (t : τ) (kept : Settled t (owed + rest)) : Settled (part.set s t) owed := by
    have whole := back t 0
    rw [add_zero, add_zero] at whole
    exact whole kept
  exact Action.ensures_run.2 ((keeps _ inside).imp
    (fun a t kept => ⟨outside t kept.1, t, rfl, kept.2⟩)
    (fun e t kept => ⟨outside t kept.1, t, rfl, kept.2⟩))

theorem completes (frames : part.Frames) (settled : Settled s owed) {done : α → τ → Prop}
    {reached : τ → Prop}
    (keeps : ∀ owed, Settled (part.get s) owed →
      act.Reaches (part.get s) fun t => Settled t owed ∧ reached t)
    (succeeds : ∀ owed, Settled (part.get s) owed → act.Completes (part.get s) done) :
    (part.run act).Completes s fun a s' =>
      Settled s' owed ∧ ∃ t, s' = part.set s t ∧ done a t ∧ reached t := by
  have both (owed : Holdings) (inside : Settled (part.get s) owed) :
      act.Ensures (part.get s) (fun a t => Settled t owed ∧ done a t ∧ reached t)
        (fun _ t => Settled t owed ∧ False) := by
    apply ((succeeds owed inside).and (keeps owed inside)).imp
    · intro _ _ ended
      exact ⟨ended.2.1, ended.1, ended.2.2⟩
    · intro _ _ ended
      exact ended.1.elim
  apply (frames.ensures settled both).imp
  · intro _ _ ended
    exact ended
  · intro _ _ ended
    obtain ⟨_, _, _, no⟩ := ended
    exact no

/-- What an action loses on a part of the state is lost to the whole. -/
theorem loses (frames : part.Frames) (settled : Settled s owed) {lost : Holdings}
    {reached : τ → Prop}
    (keeps : ∀ owed, Settled (part.get s) owed →
      act.Reaches (part.get s) fun t => Settled t (owed + lost) ∧ reached t) :
    (part.run act).Reaches s fun s' =>
      Settled s' (owed + lost) ∧ ∃ t, s' = part.set s t ∧ reached t := by
  obtain ⟨rest, inside, back⟩ := frames.enter settled
  exact Action.ensures_run.2 ((keeps _ inside).imp
    (fun a t kept => ⟨back t lost kept.1, t, rfl, kept.2⟩)
    (fun e t kept => ⟨back t lost kept.1, t, rfl, kept.2⟩))

end Part.Frames

section Frames

variable {τ υ : Type} [Holder τ] [Holder υ]

theorem onLeft_frames : (Part.mk (fun s : Linked (τ × υ) => (⟨s.own.1, s.lp⟩ : Linked τ))
    (fun s left => ⟨(left.own, s.own.2), left.lp⟩)).Frames where
  lp_get _ := rfl
  lp_set _ _ := rfl
  rest s := ⟨Holder.holdings s.own.2, add_comm _ _, fun _ => add_comm _ _⟩

theorem onRight_frames : (Part.mk (fun s : Linked (τ × υ) => (⟨s.own.2, s.lp⟩ : Linked υ))
    (fun s right => ⟨(s.own.1, right.own), right.lp⟩)).Frames where
  lp_get _ := rfl
  lp_set _ _ := rfl
  rest s := ⟨Holder.holdings s.own.1, rfl, fun _ => rfl⟩

/-- To the second of two structures the first one is owed what it holds. -/
theorem Settled.right {s : Linked (τ × υ)} {owed : Holdings} (settled : Settled s owed) :
    Settled (Linked.mk s.own.2 s.lp) (owed + Holder.holdings s.own.1) := by
  have balanced : s.lp.Balanced (owed + (Holder.holdings s.own.1 + Holder.holdings s.own.2)) :=
    settled
  rwa [← add_assoc] at balanced

theorem Settled.of_right {first : τ} {t : Linked υ} {owed : Holdings}
    (settled : Settled t (owed + Holder.holdings first)) :
    Settled (Linked.mk (first, t.own) t.lp) owed := by
  change t.lp.Balanced (owed + (Holder.holdings first + Holder.holdings t.own))
  rw [← add_assoc]
  exact settled

end Frames

end BranchCutPrice
