import BranchCutPrice.Proofs.Edits

/-!
The entries of the queue beside the nodes that they stand for. A tree that was never torn queues
nothing but its own leaves, each at most once, with the bound and the number that the leaf has
now and with the priority that follows from them.
-/

namespace BranchCutPrice.Tree

variable {tree tree' : Tree} {id : NodeId} {node : Node} {entry : QueuedLeaf}
  {may : Set Deed}

/-- An entry says of its leaf what the tree says. -/
def Files (tree : Tree) (entry : QueuedLeaf) : Prop :=
  ∃ node, tree.nodes.get? entry.node = some node ∧ node.kind = .leaf ∧ entry.bound = node.bound ∧
    entry.seq = node.seq ∧ tree.settings.selection.Ranks node entry.priority

/-- An entry stays right as long as its node stays. -/
theorem Files.of_look (files : tree.Files entry)
    (look : tree'.nodes.get? entry.node = tree.nodes.get? entry.node)
    (settings : tree'.settings = tree.settings) : tree'.Files entry := by
  obtain ⟨node, found, leaf, bound, seq, ranks⟩ := files
  refine ⟨node, look.trans found, leaf, bound, seq, ?_⟩
  rw [settings]
  exact ranks

structure Filed (tree : Tree) : Prop where
  entries : ∀ entry ∈ tree.queue.leaves, tree.Files entry
  distinct : (tree.queue.leaves.map QueuedLeaf.node).Nodup
  selection : tree.queue.selection = tree.settings.selection

namespace Filed

theorem empty (settings : TreeSettings) : (Tree.empty settings).Filed :=
  ⟨nofun, .nil, rfl⟩

/-- An entry for a leaf that is queued now. -/
theorem files_new (filed : tree.Filed) (found : tree'.nodes.get? id = some node)
    (leaf : node.kind = .leaf) (settings : tree'.settings = tree.settings) {queue : LeafQueue}
    (selection : queue.selection = tree.queue.selection) :
    tree'.Files ⟨id, node.bound, node.seq, queue.priority node.bound node.depth⟩ := by
  refine ⟨node, found, leaf, rfl, rfl, ?_⟩
  rw [settings, ← filed.selection, ← selection]
  exact queue.priority_ranks node

/-- A node that no entry stands for any more is free to change. -/
theorem of_erase (filed : tree.Filed)
    (look : ∀ other, other ≠ id → tree'.nodes.get? other = tree.nodes.get? other)
    (queue : tree'.queue = tree.queue.erase id) (settings : tree'.settings = tree.settings) :
    tree'.Filed := by
  have kept := tree.queue.erase_perm id
  refine ⟨fun entry member => ?_, ?_, ?_⟩
  · rw [queue] at member
    obtain ⟨there, apart⟩ := List.mem_filter.1 (kept.mem_iff.1 member)
    exact (filed.entries entry there).of_look (look _ (bne_iff_ne.1 apart)) settings
  · rw [queue, (kept.map QueuedLeaf.node).nodup_iff]
    exact filed.distinct.sublist (List.filter_sublist.map _)
  · rw [queue, settings]
    exact filed.selection

theorem raise (filed : tree.Filed) (found : tree.nodes.get? id = some node)
    (leaf : node.kind = .leaf) (bound : Float) :
    ((tree.setNode id { node with bound := bound }).requeue id
      { node with bound := bound }).Filed := by
  let raised : Node := { node with bound := bound }
  let tree' := (tree.setNode id raised).requeue id raised
  have nodes : tree'.nodes = tree.nodes.set id raised := requeue_nodes _ _ _
  have settings : tree'.settings = tree.settings := requeue_settings _ _ _
  have look (other : NodeId) :
      tree'.nodes.get? other = if other = id then some raised else tree.nodes.get? other := by
    rw [nodes]
    exact SlotTable.get?_set found raised other
  refine ⟨fun entry member => ?_, requeue_distinct raised filed.distinct, ?_⟩
  · obtain ⟨there, apart⟩ | ⟨_, rfl⟩ := (mem_requeue (tree.setNode id raised) id raised entry).1 member
    · refine (filed.entries entry there).of_look ?_ settings
      rw [look, if_neg apart]
    · exact filed.files_new ((look id).trans (if_pos rfl)) leaf settings rfl
  · change tree'.queue.selection = tree'.settings.selection
    rw [settings, ← filed.selection]
    exact requeue_selection _ _ _

theorem enqueue (filed : tree.Filed) (found : tree.nodes.get? id = some node)
    (leaf : node.kind = .leaf) (absent : ¬tree.queue.contains id = true) :
    { tree with queue := tree.queue.push id node.bound node.depth node.seq }.Filed := by
  have queued := tree.queue.push_perm id node.bound node.depth node.seq
  let tree' : Tree := { tree with queue := tree.queue.push id node.bound node.depth node.seq }
  have found' : tree'.nodes.get? id = some node := found
  refine ⟨fun entry member => ?_, ?_, filed.selection⟩
  · obtain rfl | old := List.mem_cons.1 (queued.mem_iff.1 member)
    · exact filed.files_new found' leaf rfl rfl
    · exact (filed.entries entry old).of_look rfl rfl
  · rw [(queued.map QueuedLeaf.node).nodup_iff, List.map_cons, List.nodup_cons]
    refine ⟨fun member => absent ?_, filed.distinct⟩
    obtain ⟨other, there, same⟩ := List.mem_map.1 member
    exact tree.queue.contains_iff.2 ⟨other, there, same⟩

end Filed

theorem Edit.filed (edit : Edit may False tree tree') (filed : tree.Filed)
    (sound : tree.nodes.Sound) (fits : tree'.nodes.Fits) : tree'.Filed := by
  cases edit with
  | beside nodes queue nextSeq settings =>
    refine ⟨fun entry member => ?_, ?_, ?_⟩
    · rw [queue] at member
      exact (filed.entries entry member).of_look (by rw [nodes]) settings
    · rw [queue]
      exact filed.distinct
    · rw [queue, settings]
      exact filed.selection
  | @write id node later found kind bound seq depth parent =>
    refine ⟨fun entry member => ?_, filed.distinct, filed.selection⟩
    have look := SlotTable.get?_set found later entry.node
    by_cases here : entry.node = id
    · -- the entry stands for the node that is written to
      obtain ⟨old, there, leaf, bound', seq', ranks⟩ := filed.entries entry member
      rw [here, found] at there
      cases there
      refine ⟨later, look.trans (if_pos here), kind.2 leaf, bound'.trans bound.symm,
        seq'.trans seq.symm, ?_⟩
      unfold Selection.Ranks at ranks ⊢
      rw [bound, depth]
      exact ranks
    · exact (filed.entries entry member).of_look (look.trans (if_neg here)) rfl
  | @solve id node payload found solved =>
    refine filed.of_erase (fun other apart => ?_) rfl rfl
    exact (SlotTable.get?_set found _ other).trans (if_neg apart)
  | raise found leaf defined above => exact filed.raise found leaf _
  | enqueue found leaf absent => exact filed.enqueue found leaf absent
  | @dequeue queue selection part =>
    refine ⟨fun entry member => (filed.entries entry (part.subset member)).of_look rfl rfl, ?_,
      selection.elim (fun same => same.trans filed.selection) fun same => same⟩
    obtain ⟨leaves, same, within⟩ := part
    rw [← (same.map QueuedLeaf.node).nodup_iff]
    exact filed.distinct.sublist (within.map _)
  | @create child allowed inherits seq =>
    have bears : tree.Bears child
        { tree with nodes := (tree.nodes.insert child).2, nextSeq := tree.nextSeq + 1 } :=
      ⟨inherits, seq, rfl, rfl⟩
    refine ⟨fun entry member => ?_, filed.distinct, filed.selection⟩
    obtain ⟨node, found, rest⟩ := filed.entries entry member
    exact ⟨node, bears.stays sound fits found, rest⟩
  | remove allowed id =>
    refine filed.of_erase (fun other apart => ?_) rfl rfl
    exact (SlotTable.get?_erase _ _ other).trans (if_neg apart)
  | tear _ open' => exact open'.elim
  | wipe allowed nodes queue nextSeq settings =>
    refine ⟨fun entry member => ?_, ?_, ?_⟩
    · rw [queue] at member
      cases member
    · rw [queue]
      exact .nil
    · rw [queue, settings]
      rfl

theorem Edited.filed (edited : Edited may False tree tree') (filed : tree.Filed)
    (graded : tree.Graded) (fits : tree'.nodes.Fits) : tree'.Filed := by
  induction edited with
  | refl => exact filed
  | tail earlier last ih =>
    have fits' := last.slots_le.trans fits
    obtain ⟨graded', _⟩ := later earlier graded fits'
    exact last.filed (ih fits') graded'.sound fits

end BranchCutPrice.Tree
