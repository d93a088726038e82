import BranchCutPrice.Proofs.Heap
import BranchCutPrice.Proofs.Slots
import BranchCutPrice.Tree.Basic

/-!
The unsolved leaves of a tree, and those among them that are queued. A tree is tidy if its
queue says of every queued leaf what its nodes say. Handles come again, so leaves are told
apart by the number of nodes created before them as well.
-/

namespace BranchCutPrice

/-- A leaf by its handle and the number of nodes created before it. -/
structure Leaf where
  id : NodeId
  seq : Nat
  deriving DecidableEq, Repr

/-- The number of nodes created before a leaf, and its bound. -/
def Node.leaf? (node : Node) : Option (Nat × Float) :=
  if node.kind = .leaf then some (node.seq, node.bound) else none

theorem Node.leaf?_inner {node : Node} (inner : node.kind ≠ .leaf) : node.leaf? = none :=
  if_neg inner

theorem Node.leaf?_leaf {node : Node} (leaf : node.kind = .leaf) :
    node.leaf? = some (node.seq, node.bound) :=
  if_pos leaf

namespace Tree

def leafAt (tree : Tree) (id : NodeId) : Option (Nat × Float) :=
  (tree.nodes.get? id).bind Node.leaf?

/-- A leaf is there and unsolved. -/
def Stands (tree : Tree) (leaf : Leaf) : Prop :=
  ∃ bound, tree.leafAt leaf.id = some (leaf.seq, bound)

theorem stands_iff {tree : Tree} {leaf : Leaf} :
    tree.Stands leaf ↔ (tree.leafAt leaf.id).map Prod.fst = some leaf.seq := by
  unfold Stands
  cases tree.leafAt leaf.id <;> simp [Prod.ext_iff]

instance (tree : Tree) (leaf : Leaf) : Decidable (tree.Stands leaf) :=
  decidable_of_iff _ stands_iff.symm

def Queues (tree : Tree) (leaf : Leaf) : Prop :=
  ∃ entry ∈ tree.queue.leaves, entry.node = leaf.id ∧ entry.seq = leaf.seq

/-- A queued leaf has a bound that reaches a cutoff. -/
def Exceeds (tree : Tree) (cutoff : Float) (id : NodeId) : Prop :=
  ∃ entry ∈ tree.queue.leaves, entry.node = id ∧ cutoff - Double.boundSlack ≤ entry.bound

variable {tree tree' tree'' : Tree} {id : NodeId} {node : Node}

theorem leafAt_found (found : tree.nodes.get? id = some node) : tree.leafAt id = node.leaf? := by
  unfold leafAt
  rw [found]
  rfl

theorem bound_of_leafAt {seq : Nat} {bound : Float} (there : tree.leafAt id = some (seq, bound))
    (found : tree.nodes.get? id = some node) : node.bound = bound := by
  rw [leafAt_found found] at there
  unfold Node.leaf? at there
  split at there
  · rw [Option.some.injEq, Prod.mk.injEq] at there
    exact there.2
  · cases there

theorem leafAt_set (found : tree.nodes.get? id = some node) {node' : Node}
    (nodes : tree'.nodes = tree.nodes.set id node') (other : NodeId) :
    tree'.leafAt other = if other = id then node'.leaf? else tree.leafAt other := by
  unfold leafAt
  rw [nodes, SlotTable.get?_set found]
  split <;> rfl

theorem leafAt_erase (nodes : tree'.nodes = tree.nodes.erase id) (other : NodeId) :
    tree'.leafAt other = if other = id then none else tree.leafAt other := by
  unfold leafAt
  rw [nodes, SlotTable.get?_erase]
  split <;> rfl

/-- The queue and the nodes agree on the queued leaves, each of which is queued once. -/
structure Tidy (tree : Tree) : Prop where
  queued : ∀ entry ∈ tree.queue.leaves,
    tree.leafAt entry.node = some (entry.seq, entry.bound)
  distinct : (tree.queue.leaves.map QueuedLeaf.node).Nodup
  seqs : ∀ id seq bound, tree.leafAt id = some (seq, bound) → seq < tree.nextSeq

namespace Tidy

variable {leaf : Leaf}

theorem stands (tidy : tree.Tidy) (queues : tree.Queues leaf) : tree.Stands leaf := by
  obtain ⟨entry, member, node, seq⟩ := queues
  have there := tidy.queued entry member
  rw [node, seq] at there
  exact ⟨_, there⟩

theorem seq_lt (tidy : tree.Tidy) (stands : tree.Stands leaf) : leaf.seq < tree.nextSeq := by
  obtain ⟨bound, there⟩ := stands
  exact tidy.seqs _ _ _ there

/-- An entry of the queue for the handle of a leaf is an entry for the leaf. -/
theorem queues (tidy : tree.Tidy) (stands : tree.Stands leaf) {entry : QueuedLeaf}
    (member : entry ∈ tree.queue.leaves) (node : entry.node = leaf.id) : tree.Queues leaf := by
  obtain ⟨bound, there⟩ := stands
  have here := tidy.queued entry member
  rw [node, there, Option.some.injEq, Prod.mk.injEq] at here
  exact ⟨entry, member, node, here.1.symm⟩

theorem eq_of_node (tidy : tree.Tidy) {left right : QueuedLeaf}
    (here : left ∈ tree.queue.leaves) (there : right ∈ tree.queue.leaves)
    (same : left.node = right.node) : left = right :=
  List.inj_on_of_nodup_map tidy.distinct here there same

end Tidy

/-- Some leaves were closed, and these and others are not queued any more. Nothing else
happened to any leaf. -/
structure Sheds (closed out : List NodeId) (tree tree' : Tree) : Prop where
  leaves : ∀ id, tree'.leafAt id = if id ∈ closed then none else tree.leafAt id
  queue : tree'.queue.leaves.Perm (tree.queue.leaves.filter (·.node ∉ out))
  nextSeq : tree'.nextSeq = tree.nextSeq
  sound : tree.nodes.Sound → tree'.nodes.Sound
  slots : tree'.nodes.slots.size = tree.nodes.slots.size

namespace Sheds

variable {closed out closed' out' : List NodeId}

theorem of_nodes (nodes : tree'.nodes = tree.nodes) (queue : tree'.queue = tree.queue)
    (nextSeq : tree'.nextSeq = tree.nextSeq) : Sheds [] [] tree tree' where
  leaves id := by
    unfold leafAt
    rw [nodes]
    rfl
  queue := by
    rw [queue]
    simp
  nextSeq := nextSeq
  sound sound := nodes ▸ sound
  slots := by rw [nodes]

theorem rfl : Sheds [] [] tree tree :=
  of_nodes (Eq.refl _) (Eq.refl _) (Eq.refl _)

/-- A node may change as long as it stays a leaf with its bound, or no leaf. -/
theorem write (found : tree.nodes.get? id = some node) {node' : Node}
    (same : node'.leaf? = node.leaf?) : Sheds [] [] tree (tree.setNode id node') where
  leaves other := by
    rw [leafAt_set found (Eq.refl _)]
    by_cases here : other = id
    · rw [if_pos here, same, here]
      exact (leafAt_found found).symm
    · rw [if_neg here]
      rfl
  queue := by
    change tree.queue.leaves.Perm _
    simp
  nextSeq := Eq.refl _
  sound sound := sound.set _ _
  slots := SlotTable.size_set _ _ _

/-- A leaf is closed and taken out of the queue. -/
theorem single
    (leaves : ∀ other, tree'.leafAt other = if other = id then none else tree.leafAt other)
    (queue : tree'.queue = tree.queue.erase id) (nextSeq : tree'.nextSeq = tree.nextSeq)
    (sound : tree.nodes.Sound → tree'.nodes.Sound)
    (slots : tree'.nodes.slots.size = tree.nodes.slots.size) : Sheds [id] [id] tree tree' where
  leaves other := by
    simp only [List.mem_singleton]
    exact leaves other
  queue := by
    rw [queue]
    refine (LeafQueue.erase_perm _ _).trans (.of_eq (List.filter_congr ?_))
    intro entry _
    rw [Bool.eq_iff_iff, bne_iff_ne, decide_eq_true_eq, List.mem_singleton]
  nextSeq := nextSeq
  sound := sound
  slots := slots

theorem trans (first : Sheds closed out tree tree') (second : Sheds closed' out' tree' tree'') :
    Sheds (closed ++ closed') (out ++ out') tree tree'' where
  leaves id := by
    rw [second.leaves, first.leaves]
    by_cases earlier : id ∈ closed
    · simp [earlier]
    · simp [earlier]
  queue := by
    have both := second.queue.trans (first.queue.filter (·.node ∉ out'))
    rw [List.filter_filter] at both
    refine both.trans (.of_eq (List.filter_congr ?_))
    intro entry _
    rw [Bool.eq_iff_iff]
    simp only [Bool.and_eq_true, decide_eq_true_eq, List.mem_append]
    tauto
  nextSeq := second.nextSeq.trans first.nextSeq
  sound sound := second.sound (first.sound sound)
  slots := second.slots.trans first.slots

theorem congr (sheds : Sheds closed out tree tree') (same : ∀ id, id ∈ closed' ↔ id ∈ closed)
    (same' : ∀ id, id ∈ out' ↔ id ∈ out) : Sheds closed' out' tree tree' where
  leaves id := by
    rw [sheds.leaves]
    simp only [same]
  queue := by
    simp only [same']
    exact sheds.queue
  nextSeq := sheds.nextSeq
  sound := sheds.sound
  slots := sheds.slots

/-- Where there is no leaf, none is closed or leaves the queue. -/
theorem idle (sheds : Sheds [id] [id] tree tree') (tidy : tree.Tidy)
    (absent : tree.leafAt id = none) : Sheds [] [] tree tree' where
  leaves other := by
    rw [sheds.leaves]
    by_cases here : other = id
    · subst here
      simp [absent]
    · simp [here]
  queue := by
    refine sheds.queue.trans (.of_eq (List.filter_congr ?_))
    intro entry member
    have different : entry.node ≠ id := by
      intro here
      have there := tidy.queued entry member
      rw [here, absent] at there
      cases there
    simp [different]
  nextSeq := sheds.nextSeq
  sound := sheds.sound
  slots := sheds.slots

theorem mem_queue (sheds : Sheds closed out tree tree') {entry : QueuedLeaf} :
    entry ∈ tree'.queue.leaves ↔ entry ∈ tree.queue.leaves ∧ entry.node ∉ out := by
  rw [sheds.queue.mem_iff, List.mem_filter, decide_eq_true_eq]

theorem tidy (sheds : Sheds closed out tree tree') (part : closed ⊆ out) (tidy : tree.Tidy) :
    tree'.Tidy where
  queued entry member := by
    obtain ⟨there, stays⟩ := sheds.mem_queue.1 member
    rw [sheds.leaves, if_neg fun gone => stays (part gone)]
    exact tidy.queued entry there
  distinct := by
    rw [(sheds.queue.map QueuedLeaf.node).nodup_iff]
    exact tidy.distinct.sublist (List.filter_sublist.map _)
  seqs id seq bound there := by
    rw [sheds.leaves] at there
    split at there
    · cases there
    · rw [sheds.nextSeq]
      exact tidy.seqs id seq bound there

end Sheds

/-! ### New leaves -/

/-- A leaf was created, but not queued yet. -/
structure Buds (id : NodeId) (tree tree' : Tree) : Prop where
  fresh : tree.leafAt id = none
  born : ∃ bound, tree'.leafAt id = some (tree.nextSeq, bound)
  others : ∀ other, other ≠ id → tree'.leafAt other = tree.leafAt other
  queue : tree'.queue.leaves.Perm tree.queue.leaves
  nextSeq : tree'.nextSeq = tree.nextSeq + 1

/-- A leaf was queued, unless it was queued before. -/
structure Enqueues (id : NodeId) (tree tree' : Tree) : Prop where
  leaves : ∀ other, tree'.leafAt other = tree.leafAt other
  queue : (∀ entry ∈ tree.queue.leaves, entry.node ≠ id) → ∃ entry, entry.node = id ∧
    tree.leafAt id = some (entry.seq, entry.bound) ∧
      tree'.queue.leaves.Perm (entry :: tree.queue.leaves)
  nextSeq : tree'.nextSeq = tree.nextSeq

/-- A leaf was created and queued. -/
structure Plants (id : NodeId) (bound : Float) (tree tree' : Tree) : Prop where
  fresh : tree.leafAt id = none
  leaves : ∀ other, tree'.leafAt other =
    if other = id then some (tree.nextSeq, bound) else tree.leafAt other
  queue : ∃ entry : QueuedLeaf, entry.node = id ∧ entry.seq = tree.nextSeq ∧
    entry.bound = bound ∧ tree'.queue.leaves.Perm (entry :: tree.queue.leaves)
  nextSeq : tree'.nextSeq = tree.nextSeq + 1

/-- The queue knew nothing of a leaf that is created. -/
theorem Tidy.absent (tidy : tree.Tidy) (fresh : tree.leafAt id = none) {entry : QueuedLeaf}
    (member : entry ∈ tree.queue.leaves) : entry.node ≠ id := by
  intro here
  have there := tidy.queued entry member
  rw [here, fresh] at there
  cases there

/-- A leaf that is created, written to and queued is planted. -/
theorem Buds.plants {tree₁ tree₂ : Tree} (tidy : tree.Tidy) (buds : Buds id tree tree₁)
    (written : Sheds [] [] tree₁ tree₂) (enqueues : Enqueues id tree₂ tree') :
    ∃ bound, Plants id bound tree tree' := by
  have leaves (other : NodeId) : tree₂.leafAt other = tree₁.leafAt other := by
    rw [written.leaves]
    simp
  have queue : tree₂.queue.leaves.Perm tree.queue.leaves := by
    have kept : tree₂.queue.leaves.Perm tree₁.queue.leaves := by
      simpa using written.queue
    exact kept.trans buds.queue
  obtain ⟨entry, node, there, queued⟩ := enqueues.queue fun entry member =>
    tidy.absent buds.fresh (queue.mem_iff.1 member)
  obtain ⟨bound, born⟩ := buds.born
  rw [leaves, born, Option.some.injEq, Prod.mk.injEq] at there
  refine ⟨bound, buds.fresh, fun other => ?_,
    ⟨entry, node, there.1.symm, there.2.symm, queued.trans (queue.cons entry)⟩, ?_⟩
  · rw [enqueues.leaves, leaves]
    by_cases here : other = id
    · rw [if_pos here, here, born]
    · rw [if_neg here, buds.others other here]
  · rw [enqueues.nextSeq, written.nextSeq, buds.nextSeq]

theorem Plants.tidy {bound : Float} (plants : Plants id bound tree tree') (tidy : tree.Tidy) :
    tree'.Tidy := by
  obtain ⟨entry, node, seq, same, queued⟩ := plants.queue
  refine ⟨?_, ?_, ?_⟩
  · intro other member
    rw [plants.leaves]
    obtain rfl | old := List.mem_cons.1 (queued.mem_iff.1 member)
    · rw [if_pos node, seq, same]
    · rw [if_neg (tidy.absent plants.fresh old)]
      exact tidy.queued other old
  · rw [(queued.map QueuedLeaf.node).nodup_iff, List.map_cons, List.nodup_cons]
    refine ⟨fun member => ?_, tidy.distinct⟩
    obtain ⟨other, old, same⟩ := List.mem_map.1 member
    exact tidy.absent plants.fresh old (same.trans node)
  · intro other seq bound there
    rw [plants.nextSeq]
    rw [plants.leaves] at there
    by_cases here : other = id
    · rw [if_pos here, Option.some.injEq, Prod.mk.injEq] at there
      omega
    · rw [if_neg here] at there
      have old := tidy.seqs other seq bound there
      omega

/-- No leaf was lost, and none that was there joined the queue or left it. Leaves that were
created are queued. -/
structure Gains (creating : Prop) (tree tree' : Tree) : Prop where
  tidy : tree'.Tidy
  nextSeq : tree.nextSeq ≤ tree'.nextSeq
  stays : ∀ leaf, tree.Stands leaf → tree'.Stands leaf
  born : ∀ leaf, tree'.Stands leaf →
    tree.Stands leaf ∨ creating ∧ tree.nextSeq ≤ leaf.seq ∧ tree'.Queues leaf
  queued : ∀ leaf, tree.Queues leaf → tree'.Queues leaf
  waits : ∀ leaf, tree.Stands leaf → tree'.Queues leaf → tree.Queues leaf

namespace Gains

variable {creating : Prop}

theorem rfl (tidy : tree.Tidy) : Gains creating tree tree where
  tidy := tidy
  nextSeq := Nat.le_refl _
  stays _ stands := stands
  born _ stands := .inl stands
  queued _ queues := queues
  waits _ _ queues := queues

theorem trans (first : Gains creating tree tree') (second : Gains creating tree' tree'') :
    Gains creating tree tree'' where
  tidy := second.tidy
  nextSeq := Nat.le_trans first.nextSeq second.nextSeq
  stays leaf stands := second.stays leaf (first.stays leaf stands)
  born leaf stands := by
    obtain earlier | ⟨creates, later, queues⟩ := second.born leaf stands
    · obtain old | ⟨creates, new, queues⟩ := first.born leaf earlier
      · exact .inl old
      · exact .inr ⟨creates, new, second.queued leaf queues⟩
    · exact .inr ⟨creates, Nat.le_trans first.nextSeq later, queues⟩
  queued leaf queues := second.queued leaf (first.queued leaf queues)
  waits leaf stands queues :=
    first.waits leaf stands (second.waits leaf (first.stays leaf stands) queues)

/-- The only leaf that is new is queued. -/
theorem of_plants {bound : Float} (plants : Plants id bound tree tree') (tidy : tree.Tidy) :
    Gains True tree tree' := by
  obtain ⟨entry, node, seq, _, queued⟩ := plants.queue
  refine ⟨plants.tidy tidy, by rw [plants.nextSeq]; omega, ?_, ?_, ?_, ?_⟩
  · intro leaf stands
    obtain ⟨bound', old⟩ := stands
    have different : leaf.id ≠ id := by
      intro here
      rw [here, plants.fresh] at old
      cases old
    refine ⟨bound', ?_⟩
    rw [plants.leaves, if_neg different]
    exact old
  · intro leaf stands
    obtain ⟨bound', now⟩ := stands
    rw [plants.leaves] at now
    by_cases here : leaf.id = id
    · rw [if_pos here, Option.some.injEq, Prod.mk.injEq] at now
      exact .inr ⟨trivial, Nat.le_of_eq now.1, entry, queued.mem_iff.2 List.mem_cons_self,
        node.trans here.symm, seq.trans now.1⟩
    · rw [if_neg here] at now
      exact .inl ⟨bound', now⟩
  · intro leaf queues
    obtain ⟨other, old, same⟩ := queues
    exact ⟨other, queued.mem_iff.2 (List.mem_cons_of_mem _ old), same⟩
  · intro leaf stands queues
    obtain ⟨other, member, same⟩ := queues
    obtain rfl | old := List.mem_cons.1 (queued.mem_iff.1 member)
    · obtain ⟨bound', before⟩ := stands
      rw [← same.1, node, plants.fresh] at before
      cases before
    · exact ⟨other, old, same⟩

end Gains

end Tree

end BranchCutPrice
