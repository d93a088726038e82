import BranchCutPrice.Proofs.Shedding

/-!
How leaves come about, are queued, and get higher bounds. A new node takes a new slot at
most, so that what is said of new leaves holds as long as the numbers of the slots fit.
-/

namespace BranchCutPrice.Tree

open BranchCutPrice.Action Relaxation

variable {tree tree' tree'' : Tree} {s : Linked Tree} {id : NodeId} {node : Node}

/-! ### Raising bounds -/

/-- What is queued once a leaf with another bound is queued again. -/
theorem mem_requeue (tree : Tree) (id : NodeId) (node : Node) (entry : QueuedLeaf) :
    entry ∈ (tree.requeue id node).queue.leaves ↔
      (entry ∈ tree.queue.leaves ∧ entry.node ≠ id) ∨
        tree.queue.contains id = true ∧ entry = ⟨id, node.bound, node.seq,
          (tree.queue.erase id).priority node.bound node.depth⟩ := by
  unfold requeue
  split
  · rename_i queued
    rw [(LeafQueue.push_perm _ _ _ _ _).mem_iff, List.mem_cons,
      (LeafQueue.erase_perm _ _).mem_iff, List.mem_filter, bne_iff_ne]
    tauto
  · rename_i absent
    constructor
    · intro member
      refine .inl ⟨member, fun here => absent ?_⟩
      exact (tree.queue.contains_iff).2 ⟨entry, member, here⟩
    · rintro (member | new)
      · exact member.1
      · exact absurd new.1 absent

theorem requeue_distinct (node : Node)
    (distinct : (tree.queue.leaves.map QueuedLeaf.node).Nodup) :
    ((tree.requeue id node).queue.leaves.map QueuedLeaf.node).Nodup := by
  unfold requeue
  split
  · have kept := (LeafQueue.push_perm (tree.queue.erase id) id node.bound node.depth node.seq).trans
      ((LeafQueue.erase_perm tree.queue id).cons _)
    rw [(kept.map QueuedLeaf.node).nodup_iff, List.map_cons, List.nodup_cons]
    refine ⟨fun member => ?_, distinct.sublist (List.filter_sublist.map _)⟩
    obtain ⟨other, there, same⟩ := List.mem_map.1 member
    exact bne_iff_ne.1 (List.mem_filter.1 there).2 same
  · exact distinct

/-- A leaf with another bound is still the same leaf, queued or not. -/
theorem requeue_gains (tidy : tree.Tidy) (found : tree.nodes.get? id = some node)
    (leaf : node.kind = .leaf) (bound : Float) :
    Gains False tree ((tree.setNode id { node with bound := bound }).requeue id
      { node with bound := bound }) := by
  let raised : Node := { node with bound := bound }
  let tree' := (tree.setNode id raised).requeue id raised
  have before : tree.leafAt id = some (node.seq, node.bound) :=
    (leafAt_found found).trans (Node.leaf?_leaf leaf)
  have nodes : tree'.nodes = tree.nodes.set id raised := by
    change ((tree.setNode id raised).requeue id raised).nodes = _
    unfold requeue
    split <;> rfl
  have nextSeq : tree'.nextSeq = tree.nextSeq := by
    change ((tree.setNode id raised).requeue id raised).nextSeq = _
    unfold requeue
    split <;> rfl
  have after (other : NodeId) : tree'.leafAt other =
      if other = id then some (node.seq, bound) else tree.leafAt other := by
    have raisedLeaf : raised.leaf? = some (node.seq, bound) := Node.leaf?_leaf leaf
    rw [leafAt_set found nodes, raisedLeaf]
  have stands (leaf : Leaf) : tree'.Stands leaf ↔ tree.Stands leaf := by
    unfold Stands
    rw [after]
    by_cases here : leaf.id = id
    · rw [if_pos here, here, before]
      simp
    · rw [if_neg here]
  have queue (entry : QueuedLeaf) := mem_requeue (tree.setNode id raised) id raised entry
  have agrees {entry : QueuedLeaf} (there : entry ∈ tree.queue.leaves)
      (here : entry.node = id) : entry.seq = node.seq := by
    have there := tidy.queued entry there
    rw [here, before, Option.some.injEq, Prod.mk.injEq] at there
    exact there.1.symm
  refine ⟨⟨?_, requeue_distinct raised tidy.distinct, ?_⟩, nextSeq.ge,
    fun leaf => (stands leaf).2, fun leaf now => .inl ((stands leaf).1 now), ?_, ?_⟩
  · intro entry member
    change tree'.leafAt entry.node = _
    obtain ⟨there, different⟩ | ⟨_, rfl⟩ := (queue entry).1 member
    · rw [after, if_neg different]
      exact tidy.queued entry there
    · rw [after, if_pos rfl]
  · intro other seq bound' there
    obtain ⟨_, old⟩ := (stands ⟨other, seq⟩).1 ⟨bound', there⟩
    exact nextSeq ▸ tidy.seqs other seq _ old
  · rintro leaf ⟨entry, there, name, seq⟩
    by_cases here : entry.node = id
    · have queued : tree.queue.contains id = true :=
        (tree.queue.contains_iff).2 ⟨entry, there, here⟩
      exact ⟨_, (queue _).2 (.inr ⟨queued, rfl⟩), here.symm.trans name,
        (agrees there here).symm.trans seq⟩
    · exact ⟨entry, (queue entry).2 (.inl ⟨there, here⟩), name, seq⟩
  · rintro leaf _ ⟨entry, member, name, seq⟩
    obtain ⟨there, _⟩ | ⟨queued, rfl⟩ := (queue entry).1 member
    · exact ⟨entry, there, name, seq⟩
    · obtain ⟨old, there, same⟩ := (tree.queue.contains_iff).1 queued
      exact ⟨old, there, same.trans name, (agrees there same).trans seq⟩

theorem raiseBound_gains (tidy : tree.Tidy) (id : NodeId) (bound : Float) :
    (raiseBound id bound).Yields tree fun _ tree' => Gains False tree tree' := by
  unfold Yields raiseBound
  split
  · trivial
  · change (Action.read _ >>= _).Ensures tree _ _
    rw [ensures_bind]
    apply yields_read.2
    intro node found
    obtain ⟨found, basis, added, leaf⟩ := getLeaf_ok.1 found
    split
    · exact .rfl tidy
    · rw [ensures_bind, ensures_modify, ensures_pure]
      have kind : node.kind = .leaf := by
        unfold Node.kind
        rw [leaf]
        rfl
      exact requeue_gains tidy found kind bound

/-! ### Creation -/

/-- What creating nodes comes to if their slots fit. -/
structure Creates (tree tree' : Tree) (effect : Prop) : Prop where
  slots : tree.nodes.slots.size ≤ tree'.nodes.slots.size
  sound : tree.nodes.Sound → tree'.nodes.Sound
  fits : tree.nodes.Sound → tree'.nodes.Fits → effect

theorem captureChild_sheds (tree : Tree) (id : NodeId) :
    (captureChild id).Yields tree fun _ tree' => Sheds [] [] tree tree' := by
  apply yields_change.2
  intro tree' changed
  cases found : tree.node id with
  | error e => simp [found, bind, Except.bind] at changed
  | ok node =>
    cases captured : node.payload.captureChild id.index with
    | error e => simp [found, captured, bind, Except.bind] at changed
    | ok payload =>
      simp only [found, captured, bind, Except.bind, pure, Except.pure] at changed
      cases changed
      obtain ⟨inner, kind, _⟩ := Payload.captureChild_ok captured
      have after : ({ node with payload := payload } : Node).leaf? = none := by
        apply Node.leaf?_inner
        change payload.kind ≠ .leaf
        rw [kind]
        exact inner
      exact .write (node_ok.1 found) (after.trans (Node.leaf?_inner inner).symm)

theorem allocate_buds (tree : Tree) (leaf : node.kind = .leaf) :
    (allocate node).Yields tree fun id tree' => Creates tree tree' (Buds id tree tree') := by
  unfold Yields allocate
  rw [ensures_modifyGet]
  refine ⟨SlotTable.size_le_insert _ _, fun sound => sound.insert _, fun sound fits => ?_⟩
  have look := SlotTable.get?_insert sound fits
  have fresh := SlotTable.get?_new sound fits
  refine ⟨?_, ⟨node.bound, ?_⟩, ?_, .refl _, rfl⟩
  · unfold leafAt
    rw [fresh]
    rfl
  · unfold leafAt
    rw [look, if_pos rfl]
    exact Node.leaf?_leaf leaf
  · intro other different
    unfold leafAt
    rw [look, if_neg different]

/-- Counting a child before does not matter to leaves. -/
theorem Buds.after (counted : Sheds [] [] tree tree') (buds : Buds id tree' tree'') :
    Buds id tree tree'' where
  fresh := by
    rw [← buds.fresh, counted.leaves]
    simp
  born := by
    rw [← counted.nextSeq]
    exact buds.born
  others other different := by
    rw [buds.others other different, counted.leaves]
    simp
  queue := buds.queue.trans (by simpa using counted.queue)
  nextSeq := by rw [buds.nextSeq, counted.nextSeq]

theorem createNode_buds (s : Linked Tree) (parent : Option NodeId) (basis : BasisId) :
    (createNode parent basis).Yields s fun id s' =>
      Creates s.own s'.own (Buds id s.own s'.own) := by
  unfold Yields createNode
  rw [ensures_bind]
  apply yields_read.2
  intro ⟨bound, depth⟩ _
  dsimp only
  rw [ensures_bind, ensures_onLp]
  apply yields_of_all
  intro _ lp'
  rw [ensures_bind]
  let before (_ : List NodeId) (s' : Linked Tree) : Prop := Sheds [] [] s.own s'.own
  have step (above : NodeId) (rest : List NodeId) (s' : Linked Tree)
      (reached : before (above :: rest) s') :
      (onOwn (captureChild above)).Yields s' fun _ => before rest := by
    unfold Yields
    rw [ensures_onOwn]
    apply (captureChild_sheds s'.own above).yields
    intro _ _ counted
    exact reached.trans counted
  have start : before parent.toList ⟨s.own, lp'⟩ := .rfl
  apply (ensures_forM before step parent.toList start).yields
  intro _ s' counted
  rw [ensures_bind, ensures_onOwn]
  apply (allocate_buds s'.own _).yields
  intro id tree' created
  rw [ensures_bind, ensures_emit, ensures_pure]
  have slots := counted.slots
  exact ⟨slots ▸ created.slots, fun sound => created.sound (counted.sound sound),
    fun sound fits => (created.fits (counted.sound sound) fits).after counted⟩
  · rfl

theorem createRoot_buds (s : Linked Tree) (basis : BasisId) :
    (createRoot basis).Yields s fun id s' => Creates s.own s'.own (Buds id s.own s'.own) := by
  unfold Yields createRoot
  rw [ensures_bind, ensures_get]
  split
  · trivial
  · change (createNode none basis >>= _).Ensures s _ _
    rw [ensures_bind]
    apply (createNode_buds s none basis).yields
    intro id s' created
    rw [ensures_bind, ensures_onOwn, ensures_modify, ensures_pure]
    refine ⟨created.slots, created.sound, fun sound fits => ?_⟩
    have buds := created.fits sound fits
    exact ⟨buds.fresh, buds.born, buds.others, buds.queue, buds.nextSeq⟩

theorem insertLeaf_enqueues (tree : Tree) (id : NodeId) :
    (insertLeaf id).Yields tree fun _ tree' =>
      Enqueues id tree tree' ∧ tree'.nodes = tree.nodes := by
  apply yields_change.2
  intro tree' changed
  cases found : tree.getLeaf id with
  | error e => simp [found, bind, Except.bind] at changed
  | ok node =>
    simp only [found, bind, Except.bind, pure, Except.pure] at changed
    obtain ⟨found, basis, added, leaf⟩ := getLeaf_ok.1 found
    have kind : node.kind = .leaf := by
      unfold Node.kind
      rw [leaf]
      rfl
    split at changed
    · rename_i queued
      cases changed
      refine ⟨⟨fun _ => rfl, fun absent => ?_, rfl⟩, rfl⟩
      obtain ⟨entry, member, here⟩ := (tree.queue.contains_iff).1 queued
      exact absurd here (absent entry member)
    · cases changed
      refine ⟨⟨fun _ => rfl, fun _ => ?_, rfl⟩, rfl⟩
      exact ⟨_, rfl, (leafAt_found found).trans (Node.leaf?_leaf kind),
        LeafQueue.push_perm _ _ _ _ _⟩

end BranchCutPrice.Tree
