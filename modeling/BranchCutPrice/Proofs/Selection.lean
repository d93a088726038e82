import BranchCutPrice.Proofs.Exactness
import BranchCutPrice.Proofs.Orderly

/-!
Selection goes by the bounds that leaves have now. The entries of the queue stand for waiting
leaves, so the lowest queued bound is the lowest bound of those, and the leaf that is taken up
next is the best one of them.
-/

open Float.Model

namespace BranchCutPrice

open BranchCutPrice.Action World

/-! ### The best entry -/

namespace QueuedLeaf

variable {left right best : QueuedLeaf} {leaves : List QueuedLeaf}

/-- The order in which entries are taken up, the highest first. -/
def rank (leaf : QueuedLeaf) : (ℤ ×ₗ ℤ ×ₗ ℤ) ×ₗ ℕ :=
  toLex (Double.place leaf.priority.toModel.unpack, leaf.seq)

theorem precedes_iff (defined : left.priority.isNaN = false)
    (defined' : right.priority.isNaN = false) :
    left.precedes right = true ↔ right.rank < left.rank := by
  simp only [precedes, rank, Prod.Lex.toLex_lt_toLex, Bool.or_eq_true, Bool.and_eq_true,
    Bool.not_eq_true', decide_eq_true_eq, decide_eq_false_iff_not, Double.lt_iff, defined,
    defined', true_and, not_lt]
  constructor
  · rintro (below | ⟨most, older⟩)
    · exact .inl below
    · exact most.lt_or_eq.imp_right fun same => ⟨same, older⟩
  · rintro (below | ⟨same, older⟩)
    · exact .inl below
    · exact .inr ⟨same.le, older⟩

theorem best?_eq_none : best? leaves = none ↔ leaves = [] := by
  cases leaves with
  | nil => simp [best?]
  | cons leaf rest =>
    unfold best?
    cases best? rest with
    | none => simp
    | some best =>
      dsimp only
      split <;> simp

/-- No entry ranks above the one that is taken up next. -/
theorem rank_le_best? (defined : ∀ leaf ∈ leaves, leaf.priority.isNaN = false)
    (found : best? leaves = some best) : ∀ leaf ∈ leaves, leaf.rank ≤ best.rank := by
  induction leaves generalizing best with
  | nil => cases found
  | cons leaf rest ih =>
    obtain ⟨first, others⟩ := List.forall_mem_cons.1 defined
    unfold best? at found
    cases later : best? rest with
    | none =>
      obtain rfl := best?_eq_none.1 later
      cases found
      simp
    | some other =>
      rw [later] at found
      dsimp only at found
      have above := ih others later
      have ranked := precedes_iff (others other (best?_mem later)) first
      split at found
      · rename_i before
        cases found
        exact List.forall_mem_cons.2 ⟨(ranked.1 before).le, above⟩
      · rename_i behind
        cases found
        have most : other.rank ≤ leaf.rank := not_lt.1 fun less => behind (ranked.2 less)
        exact List.forall_mem_cons.2 ⟨le_rfl, fun entry member => (above entry member).trans most⟩

/-- Of entries ranked by bounds the lower bound is the higher rank. -/
theorem bound_le_of_rank (priority : left.priority = -left.bound)
    (priority' : right.priority = -right.bound) (defined : left.bound.isNaN = false)
    (defined' : right.bound.isNaN = false) (ranked : left.rank ≤ right.rank) :
    right.bound ≤ left.bound ∧ (left.bound ≤ right.bound → left.seq ≤ right.seq) := by
  have ranked := Prod.Lex.toLex_le_toLex.1 ranked
  rw [priority, priority'] at ranked
  constructor
  · refine Double.le_of_not_lt defined defined' fun less => ?_
    have above := (Double.lt_iff.1 (Double.neg_lt_neg_iff.2 less)).2.2
    obtain below | ⟨same, _⟩ := ranked
    · exact below.asymm above
    · exact above.ne' same
  · intro most
    obtain below | ⟨_, older⟩ := ranked
    · have less : -left.bound < -right.bound := Double.lt_iff.2
        ⟨(Double.isNaN_neg _).trans defined, (Double.isNaN_neg _).trans defined', below⟩
      exact absurd (Double.neg_lt_neg_iff.1 less) (Double.not_lt_of_le most)
    · exact older

/-- Of entries ranked by depths the greater depth is the higher rank. -/
theorem depth_le_of_rank {depth depth' : ℕ} (priority : left.priority = Float.ofNat depth)
    (priority' : right.priority = Float.ofNat depth') (small : depth < 2 ^ 53)
    (ranked : left.rank ≤ right.rank) :
    depth < depth' ∨ depth = depth' ∧ left.seq ≤ right.seq := by
  have ranked := Prod.Lex.toLex_le_toLex.1 ranked
  rw [priority, priority'] at ranked
  obtain less | rfl | more := lt_trichotomy depth depth'
  · exact .inl less
  · exact .inr ⟨rfl, ranked.resolve_left (lt_irrefl _) |>.2⟩
  · have above := (Double.lt_iff.1 (Double.ofNat_lt more small)).2.2
    obtain below | ⟨same, _⟩ := ranked
    · exact absurd below above.asymm
    · exact absurd same above.ne'

end QueuedLeaf

theorem Selection.Ranks.defined {selection : Selection} {node : Node} {priority : Float}
    (ranks : selection.Ranks node priority) (bound : node.bound.isNaN = false) :
    priority.isNaN = false := by
  have low : (-node.bound).isNaN = false := (Double.isNaN_neg _).trans bound
  cases selection with
  | bestBound => exact (congrArg Float.isNaN ranks).trans low
  | depthFirst => exact (congrArg Float.isNaN ranks).trans (Double.isNaN_ofNat _)
  | hybrid period =>
    obtain same | same := ranks
    · exact (congrArg Float.isNaN same).trans low
    · exact (congrArg Float.isNaN same).trans (Double.isNaN_ofNat _)

namespace Tree

variable {tree : Tree} {id other : NodeId} {node node' : Node}

/-! ### Waiting leaves -/

/-- A leaf that is in the queue. -/
def Waits (tree : Tree) (id : NodeId) (node : Node) : Prop :=
  tree.queue.contains id = true ∧ tree.getLeaf id = .ok node

/-- Every entry of the queue is that of a leaf, with the bound and the number that it has now,
and no leaf has two entries. -/
structure Current (tree : Tree) : Prop where
  once : (tree.queue.leaves.map QueuedLeaf.node).Nodup
  leaf : ∀ entry ∈ tree.queue.leaves, ∃ node, tree.getLeaf entry.node = .ok node ∧
    entry.bound = node.bound ∧ entry.seq = node.seq

/-- The bound of the tree is the lowest of the bounds of its waiting leaves, infinite if there
are none. -/
structure Lowest (tree : Tree) : Prop where
  le : ∀ id node, tree.Waits id node → tree.bestBound ≤ node.bound
  attained : (∃ id node, tree.Waits id node ∧ (node.bound == tree.bestBound) = true) ∨
    tree.queue.leaves = [] ∧ tree.bestBound = Double.infinity

/-- A waiting leaf that the selection of the tree may take up next: a leaf with the lowest bound,
or one of the deepest, and the youngest one of these. -/
structure Chooses (tree : Tree) (id : NodeId) (node : Node) : Prop where
  waits : tree.Waits id node
  bestBound : tree.settings.selection = .bestBound → (node.bound == tree.bestBound) = true ∧
    ∀ other node', tree.Waits other node' → other ≠ id →
      (node'.bound == tree.bestBound) = true → node'.seq < node.seq
  depthFirst : tree.settings.selection = .depthFirst →
    ∀ other node', tree.Waits other node' → other ≠ id →
      node'.depth < node.depth ∨ node'.depth = node.depth ∧ node'.seq < node.seq

theorem getLeaf_of_get? (found : tree.nodes.get? id = some node) (leaf : node.kind = .leaf) :
    tree.getLeaf id = .ok node := by
  unfold getLeaf
  rw [node_ok.2 found]
  exact if_pos leaf

theorem Filed.current (filed : tree.Filed) : tree.Current where
  once := filed.distinct
  leaf entry member := by
    obtain ⟨node, found, leaf, bound, seq, _⟩ := filed.entries entry member
    exact ⟨node, getLeaf_of_get? found leaf, bound, seq⟩

/-- The entry of a waiting leaf. -/
theorem Filed.entry (filed : tree.Filed) (waits : tree.Waits id node) :
    ∃ entry ∈ tree.queue.leaves, entry.node = id ∧ entry.bound = node.bound ∧
      entry.seq = node.seq ∧ tree.settings.selection.Ranks node entry.priority := by
  obtain ⟨entry, member, rfl⟩ := tree.queue.contains_iff.1 waits.1
  obtain ⟨there, found, _, bound, seq, ranks⟩ := filed.entries entry member
  rw [(kind_of_getLeaf waits.2).1] at found
  cases found
  exact ⟨entry, member, rfl, bound, seq, ranks⟩

/-- The leaf of an entry. -/
theorem Filed.waits (filed : tree.Filed) {entry : QueuedLeaf}
    (member : entry ∈ tree.queue.leaves) :
    ∃ node, tree.Waits entry.node node ∧ entry.bound = node.bound ∧ entry.seq = node.seq ∧
      tree.settings.selection.Ranks node entry.priority := by
  obtain ⟨node, found, leaf, bound, seq, ranks⟩ := filed.entries entry member
  have queued := tree.queue.contains_iff.2 ⟨entry, member, rfl⟩
  exact ⟨node, ⟨queued, getLeaf_of_get? found leaf⟩, bound, seq, ranks⟩

theorem Orderly.bound_defined (orderly : tree.Orderly) {entry : QueuedLeaf}
    (member : entry ∈ tree.queue.leaves) : entry.bound.isNaN = false := by
  obtain ⟨node, waits, bound, _⟩ := orderly.filed.waits member
  rw [bound]
  exact orderly.graded.defined _ node (kind_of_getLeaf waits.2).1

theorem Orderly.lowest (orderly : tree.Orderly) : tree.Lowest := by
  have defined : ∀ bound ∈ tree.queue.leaves.map QueuedLeaf.bound, bound.isNaN = false := by
    rintro _ member
    obtain ⟨entry, there, rfl⟩ := List.mem_map.1 member
    exact orderly.bound_defined there
  obtain ⟨_, below, attained⟩ :=
    Double.foldl_least defined (show Double.infinity.isNaN = false from rfl)
  have below {entry : QueuedLeaf} (member : entry ∈ tree.queue.leaves) :
      tree.bestBound ≤ entry.bound :=
    below entry.bound (List.mem_map_of_mem member)
  have reached {entry : QueuedLeaf} (member : entry ∈ tree.queue.leaves)
      (most : entry.bound ≤ tree.bestBound) :
      ∃ id node, tree.Waits id node ∧ (node.bound == tree.bestBound) = true := by
    obtain ⟨node, waits, bound, _⟩ := orderly.filed.waits member
    refine ⟨entry.node, node, waits, ?_⟩
    rw [← bound]
    exact Double.beq_iff.2 ⟨most, below member⟩
  constructor
  · intro id node waits
    obtain ⟨entry, member, _, bound, _⟩ := orderly.filed.entry waits
    rw [← bound]
    exact below member
  · change tree.bestBound = Double.infinity ∨ tree.bestBound ∈ _ at attained
    obtain top | member := attained
    · cases leaves : tree.queue.leaves with
      | nil => exact .inr ⟨rfl, top⟩
      | cons entry rest =>
        -- every bound is infinite
        have member : entry ∈ tree.queue.leaves := by simp [leaves]
        refine .inl (reached member ?_)
        rw [top]
        exact Double.le_infinity (orderly.bound_defined member)
    · obtain ⟨entry, there, same⟩ := List.mem_map.1 member
      refine .inl (reached there ?_)
      rw [same]
      exact Double.le_refl (same ▸ orderly.bound_defined there)

/-- Waiting leaves that are not the same have different numbers. -/
theorem Graded.seq_ne (graded : tree.Graded) (waits : tree.Waits id node)
    (waits' : tree.Waits other node') (apart : other ≠ id) : node'.seq ≠ node.seq := fun same =>
  apart (graded.apart other id node' node (kind_of_getLeaf waits'.2).1
    (kind_of_getLeaf waits.2).1 same)

/-- The best entry is that of a leaf that the selection may take up next. -/
theorem Orderly.chooses (orderly : tree.Orderly)
    (small : ∀ id node, tree.nodes.get? id = some node → node.depth < 2 ^ 53)
    {best : QueuedLeaf} (found : QueuedLeaf.best? tree.queue.leaves = some best) :
    ∃ node, tree.Chooses best.node node := by
  have member := QueuedLeaf.best?_mem found
  obtain ⟨node, waits, bound, seq, ranks⟩ := orderly.filed.waits member
  have top : ∀ entry ∈ tree.queue.leaves, entry.rank ≤ best.rank := by
    refine QueuedLeaf.rank_le_best? (fun entry there => ?_) found
    obtain ⟨other, waits', _, _, ranks'⟩ := orderly.filed.waits there
    have live := (kind_of_getLeaf waits'.2).1
    exact ranks'.defined (orderly.graded.defined _ other live)
  refine ⟨node, waits, fun selection => ?_, fun selection => ?_⟩
  · rw [selection] at ranks
    have lower {id : NodeId} {other : Node} (waits' : tree.Waits id other) :
        node.bound ≤ other.bound ∧ (other.bound ≤ node.bound → other.seq ≤ node.seq) := by
      obtain ⟨entry, there, _, bound', seq', ranks'⟩ := orderly.filed.entry waits'
      rw [selection] at ranks'
      rw [← bound, ← seq, ← bound', ← seq']
      exact QueuedLeaf.bound_le_of_rank (ranks'.trans (congrArg Neg.neg bound'.symm))
        (ranks.trans (congrArg Neg.neg bound.symm)) (orderly.bound_defined there)
        (orderly.bound_defined member) (top entry there)
    have below := orderly.lowest.le best.node node waits
    refine ⟨Double.beq_iff.2 ⟨?_, below⟩, fun other node' waits' apart same => ?_⟩
    · obtain ⟨id, other, waits', same⟩ | ⟨none, _⟩ := orderly.lowest.attained
      · exact Double.le_trans (lower waits').1 (Double.beq_iff.1 same).1
      · rw [none] at member
        cases member
    · have most := (lower waits').2 (Double.le_trans (Double.beq_iff.1 same).1 below)
      exact most.lt_of_ne (orderly.graded.seq_ne waits waits' apart)
  · rw [selection] at ranks
    intro other node' waits' apart
    obtain ⟨entry, there, _, _, seq', ranks'⟩ := orderly.filed.entry waits'
    rw [selection] at ranks'
    have shallow := small other node' (kind_of_getLeaf waits'.2).1
    have ranked := QueuedLeaf.depth_le_of_rank ranks' ranks shallow (top entry there)
    rw [seq, seq'] at ranked
    refine ranked.imp_right fun ⟨same, most⟩ => ⟨same, ?_⟩
    exact most.lt_of_ne (orderly.graded.seq_ne waits waits' apart)

/-! ### Taking leaves -/

theorem peek?_eq_pop? (queue : LeafQueue) : queue.peek? = queue.pop?.map Prod.fst := by
  unfold LeafQueue.peek? LeafQueue.pop?
  rw [Option.map_map]
  rfl

/-- The leaf that is next is taken out of the queue, and that is all. -/
structure Takes (tree : Tree) (outcome : Outcome Tree (Option NodeId)) : Prop where
  result : outcome.result = .ok tree.queue.peek?
  frame : ∃ queue, outcome.state = { tree with queue := queue }
  rest : outcome.state.queue.leaves.Perm
    (tree.queue.leaves.filter fun entry => tree.queue.peek? != some entry.node)

theorem Current.takes (current : tree.Current) : tree.Takes (popLeaf tree) := by
  have ensured : popLeaf.Ensures tree
      (fun taken tree' => taken = tree.queue.peek? ∧
        (∃ queue, tree' = { tree with queue := queue }) ∧
        tree'.queue.leaves.Perm
          (tree.queue.leaves.filter fun entry => tree.queue.peek? != some entry.node))
      (fun _ _ => False) := by
    unfold popLeaf
    rw [ensures_modifyGet, peek?_eq_pop?]
    cases popped : tree.queue.pop? with
    | none =>
      exact ⟨rfl, ⟨tree.queue, rfl⟩, .of_eq (List.filter_eq_self.2 fun _ _ => rfl).symm⟩
    | some pair =>
      obtain ⟨id, queue⟩ := pair
      refine ⟨rfl, ⟨queue, rfl⟩, ?_⟩
      obtain ⟨best, rfl, parted⟩ := tree.queue.pop?_perm popped
      have once := (parted.map QueuedLeaf.node).nodup_iff.2 current.once
      rw [List.map_cons, List.nodup_cons] at once
      have others : queue.leaves.filter (fun entry => some best.node != some entry.node) =
          queue.leaves := by
        refine List.filter_eq_self.2 fun entry member => ?_
        have apart : best.node ≠ entry.node := fun same =>
          once.1 (same ▸ List.mem_map_of_mem member)
        simpa using apart
      have kept := parted.filter fun entry => some best.node != some entry.node
      rw [List.filter_cons_of_neg (by simp), others] at kept
      exact kept
  obtain ⟨taken, ended, rfl, frame, rest⟩ := ensures_never ensured
  exact ⟨ended, frame, rest⟩

end Tree

/-- In every tree that calls lead to, if clients release only what they hold, the queue says of
leaves what the tree says of them now: the bound of the tree is the lowest of the waiting
leaves', the next leaf is the one that the selection asks for, and taking it takes nothing else. -/
theorem selection_current {ι : Type} [Fintype ι] [DecidableEq ι] [Inhabited ι] {rule : Rule ι}
    {w : World ι} (reached : Reachable rule w) (p : ι) :
    let tree := w.trees p
    tree.Current ∧ tree.Lowest ∧
      (∀ id, tree.queue.peek? = some id → ∃ node, tree.Chooses id node) ∧
      (tree.queue.peek? = none ↔ tree.queue.leaves = []) ∧ tree.Takes (Tree.popLeaf tree) := by
  obtain ⟨orderly, _⟩ := reached.orderly p
  obtain ⟨_, kept, _⟩ := reached.kept
  have shaped := kept.shaped p
  have small (id : NodeId) (node : Node) (found : (w.trees p).nodes.get? id = some node) :
      node.depth < 2 ^ 53 := by
    have shallow : node.depth < (w.trees p).nodes.slots.size := shaped.depth_lt found
    exact shallow.trans (shaped.fits.trans_lt (by decide))
  have current := orderly.filed.current
  refine ⟨current, orderly.lowest, fun id next => ?_, ?_, current.takes⟩
  · obtain ⟨best, found, rfl⟩ := Option.map_eq_some_iff.1 next
    exact orderly.chooses small found
  · exact Option.map_eq_none_iff.trans QueuedLeaf.best?_eq_none

/-- Three leaves below a root are queued, and the bound of the youngest one is raised. -/
def queueing : List (Call Unit) :=
  rooting ++ branching.take 3 ++ [.tree () (.createLeaf ⟨0, 0⟩ ⟨0, 0⟩),
    .tree () (.insertLeaf ⟨1, 0⟩), .tree () (.insertLeaf ⟨2, 0⟩),
    .tree () (.insertLeaf ⟨3, 0⟩), .tree () (.raiseBound ⟨3, 0⟩ 5)]

theorem selection_current_raised :
    ((World.initial.after queueing).trees ()).queue.size = 3 ∧
      (Tree.popLeaf ((World.initial.after queueing).trees ())).result = .ok (some ⟨2, 0⟩) ∧
      ∃ node, ((World.initial.after queueing).trees ()).Chooses ⟨2, 0⟩ node := by
  have plays : Plays (fun _ _ => True) World.initial queueing := by
    decide +kernel
  have next : ((World.initial.after queueing).trees ()).queue.peek? = some ⟨2, 0⟩ := by
    decide +kernel
  obtain ⟨_, _, chooses, _, takes⟩ := selection_current plays.reachable ()
  exact ⟨by decide +kernel, takes.result.trans (congrArg Except.ok next), chooses _ next⟩

end BranchCutPrice
