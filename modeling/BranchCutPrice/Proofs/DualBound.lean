import BranchCutPrice.Proofs.Fates
import BranchCutPrice.Proofs.Reporting
import BranchCutPrice.Proofs.Selection

/-!
The dual bound of a session. It is the lowest bound of the leaves that wait in the queue, and
so the gap and the progress that are reported are relative to these. A leaf that was handed out
does not count until it is closed, though nothing below it was searched yet.
-/

namespace BranchCutPrice

open BranchCutPrice.Action World

variable {ι : Type} [DecidableEq ι] [Inhabited ι]

namespace Tree

variable {tree : Tree} {id : NodeId} {node : Node}

theorem stands_of_getLeaf (found : tree.getLeaf id = .ok node) :
    tree.Stands ⟨id, node.seq⟩ := by
  obtain ⟨there, leaf⟩ := kind_of_getLeaf found
  exact ⟨node.bound, (leafAt_found there).trans (Node.leaf?_leaf leaf)⟩

theorem Filed.waits_iff (filed : tree.Filed) (found : tree.getLeaf id = .ok node) :
    tree.Waits id node ↔ tree.Queues ⟨id, node.seq⟩ := by
  constructor
  · intro waits
    obtain ⟨entry, member, same, _, seq, _⟩ := filed.entry waits
    exact ⟨entry, member, same, seq⟩
  · rintro ⟨entry, member, same, _⟩
    exact ⟨tree.queue.contains_iff.2 ⟨entry, member, same⟩, found⟩

end Tree

/-- A leaf of a search is either queued, or handed out and not closed since. -/
theorem Accounts.waits_iff {w : World ι} {calls : List (Call ι)} {s : Session}
    (accounts : Accounts w calls s) (filed : s.tree.Filed) {id : NodeId} {node : Node}
    (found : s.tree.getLeaf id = .ok node) :
    s.tree.Waits id node ↔ ¬HandedOut w calls ⟨id, node.seq⟩ := by
  have stands := Tree.stands_of_getLeaf found
  rw [filed.waits_iff found]
  constructor
  · intro queues handed
    exact (accounts.handedOut _ handed).2 queues
  · exact (accounts.standing _ (accounts.born _ stands) stands).resolve_right

/-- The dual bound that a search reports is the lowest bound of those of its leaves that were
not handed out, infinite if there are none. What is said of the gap and of progress is relative
to that. -/
theorem dual_bound_of_waiting [Fintype ι] {w : World ι} {calls : List (Call ι)} (fresh : w.Fresh)
    (plays : Plays Searching w calls) :
    let s := (w.after calls).session
    (∀ id node, s.tree.getLeaf id = .ok node →
      (s.tree.Waits id node ↔ ¬HandedOut w calls ⟨id, node.seq⟩) ∧
      (¬HandedOut w calls ⟨id, node.seq⟩ → s.bestBound ≤ node.bound)) ∧
    ((∃ id node, s.tree.Waits id node ∧ (node.bound == s.bestBound) = true) ∨
      s.tree.queue.leaves = [] ∧ s.bestBound = Double.infinity) ∧
    s.gap = relativeGap s.incumbent.objective s.bestBound ∧
    s.stats.bestBound = s.bestBound ∧ s.stats.gap = s.gap ∧
    ∀ progress, .progressed progress ∈ (Session.nextNode s).events →
      let s' := (Session.nextNode s).state
      progress.bound = s'.bestBound ∧ progress.gap = s'.gap := by
  have reached : Reachable Searching (w.after calls) := ⟨w, fresh, plays.run⟩
  have accounts := Accounts.of_plays fresh plays
  obtain ⟨orderly, _⟩ := reached.orderly default
  have lowest := orderly.lowest
  refine ⟨fun id node found => ?_, lowest.attained, rfl, rfl, rfl, fun progress reported => ?_⟩
  · have waits := accounts.waits_iff orderly.filed found
    exact ⟨waits, fun inside => lowest.le id node (waits.2 inside)⟩
  · rw [Session.nextNode_reports _ progress reported]
    exact ⟨rfl, rfl⟩

/-- Of the two leaves below a root one was handed out, and the other one gives the bound. -/
theorem dual_bound_of_waiting_branched :
    HandedOut World.initial (searching.take 5) ⟨⟨2, 0⟩, 2⟩ ∧
      ¬HandedOut World.initial (searching.take 5) ⟨⟨1, 0⟩, 1⟩ ∧
      (World.initial.after (searching.take 5)).session.bestBound ≤ 3 := by
  have plays : Plays Searching World.initial (searching.take 5) := by
    decide +kernel
  let child (active : Bool) (seq : Nat) : Node :=
    ⟨.leaf ⟨0, 1⟩ [], some ⟨0, 0⟩, [], [], 3, 1, active, seq⟩
  let tree := (World.initial.after (searching.take 5)).session.tree
  have queued : tree.getLeaf ⟨1, 0⟩ = .ok (child false 1) := by decide +kernel
  have taken : tree.getLeaf ⟨2, 0⟩ = .ok (child true 2) := by decide +kernel
  have inside : tree.queue.contains ⟨1, 0⟩ = true := by decide +kernel
  have outside : ¬tree.queue.contains ⟨2, 0⟩ = true := by decide +kernel
  obtain ⟨leaves, _⟩ := dual_bound_of_waiting World.initial_fresh plays
  obtain ⟨waits_iff, below⟩ := leaves _ _ queued
  have waiting := waits_iff.1 ⟨inside, queued⟩
  refine ⟨not_not.1 fun waits => ?_, waiting, below waiting⟩
  exact outside ((leaves _ _ taken).1.2 waits).1

/-- The only leaf of a search was handed out. It has no bound, but the reported one is infinite. -/
theorem dual_bound_above_handed_out :
    Plays Searching World.initial (searching.take 2) ∧
      (World.initial.after (searching.take 2)).session.tree.getLeaf ⟨0, 0⟩ =
        .ok ⟨.leaf ⟨0, 0⟩ [], none, [], [], Double.negInfinity, 0, true, 0⟩ ∧
      (World.initial.after (searching.take 2)).session.bestBound = Double.infinity ∧
      ¬(World.initial.after (searching.take 2)).session.bestBound ≤ Double.negInfinity := by
  decide +kernel

end BranchCutPrice
