import BranchCutPrice.Proofs.Pruning

/-!
Operations on trees are all or nothing, but for the move of the focus: where one is refused,
the tree, its queue, the relaxation and all counts of uses are as they were. Prunings and
clearances are not refused at all.
-/

namespace BranchCutPrice

namespace Action

variable {σ τ α : Type} {s : σ}

/-- A refusal leaves everything as it was. -/
abbrev Atomic (act : Action σ α) (s : σ) : Prop :=
  act.Ensures s (fun _ _ => True) fun _ s' => s' = s

theorem Ensures.atomic {act : Action σ α} {done : α → σ → Prop} {refused : Error → σ → Prop}
    (ensured : act.Ensures s done refused) (same : ∀ e s', refused e s' → s' = s) :
    act.Atomic s :=
  ensured.imp (fun _ _ _ => trivial) same

theorem atomic_change (step : σ → Except Error σ) (s : σ) : (change step).Atomic s :=
  ensures_change.2 ⟨fun _ _ => trivial, fun _ _ => rfl⟩

theorem atomic_discard {act : Action σ α} (atomic : act.Atomic s) :
    (discard act : Action σ Unit).Atomic s :=
  discard_ensures.2 atomic

theorem atomic_onOwn {act : Action τ α} {s : Linked τ} (atomic : act.Atomic s.own) :
    (onOwn act).Atomic s := by
  apply ensures_onOwn.2
  apply atomic.imp
  · intro _ _ done
    exact done
  · intro _ own same
    rw [same]

end Action

open BranchCutPrice.Action

namespace Tree

variable {s : Linked Tree} {tree : Tree} {owed : Holdings} {id : NodeId}

theorem raiseBound_atomic (tree : Tree) (id : NodeId) (bound : Float) :
    (raiseBound id bound).Atomic tree := by
  unfold Atomic raiseBound
  split
  · rfl
  · change (Action.read _ >>= _).Ensures tree _ _
    rw [ensures_bind]
    apply ensures_read.2
    constructor
    · intro node _
      split
      · trivial
      · rw [ensures_bind, ensures_modify]
        trivial
    · intro _ _
      rfl

theorem pruneLeaves_never (settled : Settled s owed) (shaped : s.desk.Shaped)
    (tidy : s.own.Tidy) (cutoff : Float) :
    (pruneLeaves cutoff).Ensures s (fun _ _ => True) (fun _ _ => False) :=
  Completes.mono (pruneLeaves_completes settled shaped tidy cutoff) fun _ _ _ => trivial

end Tree

/-- The calls on a tree but for a move of the focus are all or nothing. -/
theorem TreeCall.perform_atomic {s : Linked Tree} {owed : Holdings} (call : TreeCall)
    (settled : Settled s owed) (shaped : s.desk.Shaped) (tidy : s.own.Tidy)
    (other : ∀ id, call ≠ .focusOn id) : call.perform.Atomic s := by
  cases call with
  | createRoot basis =>
    apply atomic_discard
    exact (Tree.createRoot_ensures settled shaped.sound basis).atomic fun _ _ refused => refused.1
  | createLeaf parent basis =>
    apply atomic_discard
    exact (Tree.createLeaf_ensures settled shaped.sound parent basis).atomic
      fun _ _ refused => refused
  | addRow id row => exact (Tree.addRow_ensures settled id row).atomic fun _ _ refused => refused.1
  | addDomainChange id change => exact atomic_onOwn (atomic_change _ s.own)
  | setConstraints id constraints => exact atomic_onOwn (atomic_change _ s.own)
  | raiseBound id bound =>
    exact atomic_onOwn (atomic_discard (Tree.raiseBound_atomic s.own id bound))
  | insertLeaf id => exact atomic_onOwn (atomic_change _ s.own)
  | removeLeaf id => exact atomic_onOwn (atomic_change _ s.own)
  | popLeaf => trivial
  | leafToFork id => exact (Tree.leafToFork_ensures settled id).atomic fun _ _ refused => refused
  | forkToSubroot id =>
    exact (Tree.forkToSubroot_ensures settled id).atomic fun _ _ refused => refused.1
  | promote id =>
    apply atomic_discard
    exact (Tree.promote_ensures settled shaped id).atomic fun _ _ refused => refused
  | focusOn id => exact absurd rfl (other id)
  | freeNode id =>
    exact (Tree.freeNode_ensures settled shaped id).atomic fun _ _ refused => refused.1
  | pruneLeaves cutoff =>
    apply atomic_discard
    exact (Tree.pruneLeaves_never settled shaped tidy cutoff).atomic fun _ _ no => no.elim
  | clear => exact (Tree.clear_ensures settled shaped).atomic fun _ _ no => no.elim

/-! ### Worlds -/

variable {ι : Type} [DecidableEq ι] [Inhabited ι]

omit [Inhabited ι] in
/-- What leaves one of the trees and the relaxation as they were leaves the world as it was. -/
theorem World.atomic_treeAt {w : World ι} {p : ι} {act : Action (Linked Tree) Unit}
    (atomic : act.Atomic ⟨w.trees p, w.lp⟩) : ((treeAt p).run act).Atomic w := by
  apply ensures_run.2
  apply atomic.imp
  · intro _ _ done
    exact done
  · intro _ s same
    rw [same]
    change { w with trees := Function.update w.trees p (w.trees p) } = w
    rw [Function.update_eq_self]

variable [Fintype ι] {rule : Rule ι} {w : World ι}

/-- A refused call on a tree leaves the world as it was, unless it is to move the focus.
Prunings and clearances are never refused. -/
theorem refusals_change_nothing (reached : Reachable rule w) (p : ι) :
    (∀ call : TreeCall, (∀ id, call ≠ .focusOn id) → ∀ e,
      ((Call.tree p call).perform w).result = .error e →
        ((Call.tree p call).perform w).state = w) ∧
    (∀ cutoff, ∃ pruned, (Tree.pruneLeaves cutoff ⟨w.trees p, w.lp⟩).result = .ok pruned) ∧
    (Tree.clear ⟨w.trees p, w.lp⟩).result = .ok () := by
  obtain ⟨_, settled, shaped⟩ := reached.linked p
  have tidy : (w.trees p).Tidy := (reached.orderly p).1.tidy
  refine ⟨fun call other e refused => ?_, fun cutoff => ?_, ?_⟩
  · have atomic := World.atomic_treeAt (call.perform_atomic settled shaped tidy other)
    exact ensures_of_error refused atomic
  · obtain ⟨pruned, ended, _⟩ := ensures_never (Tree.pruneLeaves_never settled shaped tidy cutoff)
    exact ⟨pruned, ended⟩
  · obtain ⟨_, ended, _⟩ := ensures_never (Tree.clear_ensures settled shaped)
    exact ended

/-- The root of a branched tree has children, so it is not removed. -/
theorem refusals_change_nothing_branched :
    ((Call.tree () (.freeNode ⟨0, 0⟩)).perform
        (World.initial.after (rooting ++ branching))).result = .error (.hasChildren 0 2) ∧
      ((Call.tree () (.freeNode ⟨0, 0⟩)).perform
        (World.initial.after (rooting ++ branching))).state =
          World.initial.after (rooting ++ branching) := by
  have plays : Plays (fun _ _ => True) World.initial (rooting ++ branching) := by
    decide
  have refused : ((Call.tree () (.freeNode ⟨0, 0⟩)).perform
      (World.initial.after (rooting ++ branching))).result = .error (.hasChildren 0 2) := rfl
  exact ⟨refused, (refusals_change_nothing plays.reachable ()).1 (.freeNode ⟨0, 0⟩) nofun _ refused⟩

end BranchCutPrice
