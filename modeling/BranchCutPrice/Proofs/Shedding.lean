import BranchCutPrice.Proofs.Focus
import BranchCutPrice.Proofs.Growth
import BranchCutPrice.Proofs.Leaves
import BranchCutPrice.Proofs.Removal
import BranchCutPrice.Tree.Promotion

/-!
What the operations on a tree do to its leaves. A removal closes the leaf that it starts
from, as everything above is no leaf; a promotion closes a leaf too; and the other operations
but for the creation of nodes leave all leaves open.
-/

namespace BranchCutPrice.Tree

open BranchCutPrice.Action Relaxation

variable {tree : Tree} {s : Linked Tree} {id : NodeId} {node : Node}

/-! ### Writing -/

theorem recordRow_sheds (tree : Tree) (id : NodeId) (row : RowId) :
    Sheds [] [] tree (tree.recordRow id row) := by
  unfold recordRow
  cases found : tree.nodes.get? id with
  | none => exact .rfl
  | some node =>
    dsimp only
    split
    · rename_i basis added leaf
      have before : node.kind = .leaf := by
        unfold Node.kind
        rw [leaf]
        rfl
      apply Sheds.write found
      rw [Node.leaf?_leaf before]
      rfl
    · exact .rfl

theorem addRow_sheds (s : Linked Tree) (id : NodeId) (row : RowId) :
    (addRow id row).Yields s fun _ s' => Sheds [] [] s.own s'.own := by
  unfold Yields addRow
  rw [ensures_bind, ensures_get]
  split
  · trivial
  · change (Action.read _ >>= _).Ensures s _ _
    rw [ensures_bind]
    apply yields_read.2
    intro _ _
    rw [ensures_bind, ensures_onLp]
    apply yields_of_all
    intro _ lp'
    rw [ensures_bind, ensures_onLp]
    apply yields_of_all
    intro _ lp''
    rw [ensures_onOwn, ensures_modify]
    exact recordRow_sheds s.own id row

theorem addDomainChange_sheds (tree : Tree) (id : NodeId) (change : BoundChange) :
    (addDomainChange id change).Yields tree fun _ tree' => Sheds [] [] tree tree' := by
  apply yields_change.2
  intro tree' changed
  split at changed
  · cases changed
  · cases found : tree.node id with
    | error e => simp [found, bind, Except.bind] at changed
    | ok node =>
      rw [found] at changed
      cases changed
      exact .write (node_ok.1 found) rfl

theorem marks_sheds (active : Bool) (tree : Tree) (path : List NodeId) :
    Sheds [] [] tree (path.foldl (mark active) tree) := by
  induction path generalizing tree with
  | nil => exact .rfl
  | cons id rest ih =>
    have marked : Sheds [] [] tree (mark active tree id) := by
      unfold mark
      cases found : tree.nodes.get? id with
      | none => exact .rfl
      | some node => exact .write found rfl
    exact marked.trans (ih _)

theorem focusOn_sheds (s : Linked Tree) (id : NodeId) :
    (focusOn id).Yields s fun _ s' => Sheds [] [] s.own s'.own := by
  apply ensures_focusOn
  · intro _ _
    trivial
  · intro _ _ _ _
    trivial
  · intro wanted start _ _
    apply yields_of_all
    intro edits lp'
    refine ⟨fun path _ => ?_, fun _ _ => trivial⟩
    have marked := (marks_sheds false s.own s.own.activePath).trans (marks_sheds true _ path)
    exact marked.trans (.of_nodes rfl rfl rfl)

/-! ### Solving -/

theorem leafToFork_sheds (s : Linked Tree) (id : NodeId) :
    (leafToFork id).Yields s fun _ s' => Sheds [id] [id] s.own s'.own := by
  unfold Yields leafToFork
  rw [ensures_bind]
  apply yields_read.2
  intro node found
  have found := node_ok.1 found
  split
  · rename_i basis added leaf
    rw [ensures_bind, ensures_onOwn, ensures_modify, ensures_bind, ensures_onLp]
    apply yields_of_all
    intro _ lp'
    rw [ensures_emit]
    have solved : ({ node with payload := .fork added 0 } : Node).leaf? = none := rfl
    refine .single (fun other => ?_) rfl rfl (fun sound => sound.set _ _)
      (SlotTable.size_set _ _ _)
    rw [← solved]
    exact leafAt_set found rfl other
  · trivial

theorem forkToSubroot_sheds (s : Linked Tree) (id : NodeId) :
    (forkToSubroot id).Yields s fun _ s' => Sheds [] [] s.own s'.own := by
  unfold Yields forkToSubroot
  rw [ensures_bind]
  apply yields_read.2
  intro node found
  have found := node_ok.1 found
  split
  · rename_i added children fork
    rw [ensures_bind]
    apply yields_read.2
    intro _ _
    rw [ensures_bind, ensures_get, ensures_bind, ensures_onLp]
    apply yields_of_all
    intro _ lp'
    rw [ensures_bind, ensures_onOwn, ensures_modify, ensures_bind, ensures_onLp]
    apply yields_of_all
    intro _ lp''
    rw [ensures_emit]
    have inner : node.leaf? = none := by
      apply Node.leaf?_inner
      unfold Node.kind
      rw [fork]
      simp [Payload.kind]
    have written : Sheds [] [] s.own
        (s.own.setPayload id node (.subroot s.lp.loadedRows children)) := by
      apply Sheds.write found
      rw [inner]
      rfl
    exact written.trans (.of_nodes rfl rfl rfl)
  · trivial

theorem promote_sheds (s : Linked Tree) (id : NodeId) :
    (promote id).Yields s fun _ s' => Sheds [id] [id] s.own s'.own := by
  unfold Yields promote
  rw [ensures_bind]
  apply yields_read.2
  intro node _
  rw [ensures_bind]
  apply yields_read.2
  intro _ _
  rw [ensures_bind]
  apply yields_read.2
  intro expected _
  rw [ensures_bind, ensures_get]
  dsimp only
  rw [ensures_bind]
  apply (leafToFork_sheds s id).yields
  intro _ middle forked
  rw [ensures_bind]
  apply yields_read.2
  intro ⟨chain, delta⟩ _
  dsimp only
  rw [ensures_bind, ensures_get]
  split
  · rw [ensures_bind]
    apply (forkToSubroot_sheds middle id).yields
    intro _ _ flattened
    exact forked.trans flattened
  · exact forked

/-! ### Removing -/

theorem detach_sheds (tree : Tree) (id : NodeId) :
    (detach id).Yields tree fun _ tree' => Sheds [id] [id] tree tree' := by
  unfold Yields detach take
  rw [ensures_bind, ensures_bind]
  apply yields_read.2
  intro node _
  rw [ensures_bind, ensures_modify, ensures_pure, ensures_bind, ensures_modify, ensures_pure]
  exact .single (leafAt_erase rfl) rfl rfl (fun sound => sound.erase _)
    (SlotTable.size_erase _ _)

/-- Whatever has children is no leaf, before and after it counts one less. -/
theorem releaseChild_sheds (tree : Tree) (id : NodeId) :
    (releaseChild id).Yields tree fun _ tree' =>
      Sheds [] [] tree tree' ∧ tree'.leafAt id = none := by
  unfold Yields releaseChild
  rw [ensures_bind]
  apply yields_read.2
  intro node found
  have found := node_ok.1 found
  rw [ensures_bind]
  cases released : node.payload.releaseChild id.index with
  | error e => trivial
  | ok payload =>
    rw [ensures_resume_ok, ensures_bind, ensures_modify, ensures_pure]
    obtain ⟨inner, kind, _⟩ := Payload.releaseChild_ok released
    have after : ({ node with payload := payload } : Node).leaf? = none := by
      apply Node.leaf?_inner
      change payload.kind ≠ .leaf
      rw [kind]
      exact inner
    constructor
    · exact .write found (after.trans (Node.leaf?_inner inner).symm)
    · rw [leafAt_set found rfl, if_pos rfl]
      exact after

theorem freeUpwards_sheds (steps : Nat) (tidy : s.own.Tidy) (id : NodeId) :
    (freeUpwards steps id).Yields s fun _ s' => Sheds [id] [id] s.own s'.own := by
  induction steps generalizing s id with
  | zero => trivial
  | succ steps ih =>
    unfold Yields freeUpwards
    rw [ensures_bind, ensures_onOwn]
    apply (detach_sheds s.own id).yields
    intro node tree' detached
    rw [ensures_bind, ensures_onLp]
    apply yields_of_all
    intro _ lp'
    rw [ensures_bind, ensures_emit]
    cases node.parent with
    | none => exact detached
    | some above =>
      dsimp only
      rw [ensures_bind, ensures_onOwn]
      apply (releaseChild_sheds tree' above).yields
      intro remaining tree'' lowered
      obtain ⟨lowered, inner⟩ := lowered
      have whole := detached.trans lowered
      split
      · have tidy' : tree''.Tidy := whole.tidy (List.Subset.refl _) tidy
        apply (ih (s := ⟨tree'', lp'⟩) tidy' above).yields
        intro _ s' freed
        exact whole.trans (freed.idle tidy' inner)
      · exact whole

theorem freeNode_sheds (tidy : s.own.Tidy) (id : NodeId) :
    (freeNode id).Yields s fun _ s' => Sheds [id] [id] s.own s'.own := by
  unfold Yields freeNode
  rw [ensures_bind, ensures_get]
  dsimp only
  rw [ensures_bind]
  apply yields_read.2
  intro node _
  split
  · trivial
  · exact freeUpwards_sheds _ tidy id

/-! ### The queue -/

/-- The leaf that is popped was queued, and stays open. -/
theorem popLeaf_sheds (tidy : tree.Tidy) :
    popLeaf.Yields tree fun popped tree' => Sheds [] popped.toList tree tree' ∧
      ∀ id ∈ popped, ∃ entry ∈ tree.queue.leaves, entry.node = id := by
  unfold Yields popLeaf
  rw [ensures_modifyGet]
  cases popped : tree.queue.pop? with
  | none => exact ⟨.rfl, nofun⟩
  | some next =>
    obtain ⟨id, queue⟩ := next
    obtain ⟨entry, node, parted⟩ := LeafQueue.pop?_perm _ popped
    have distinct : ((entry :: queue.leaves).map QueuedLeaf.node).Nodup :=
      (parted.map QueuedLeaf.node).nodup_iff.2 tidy.distinct
    rw [List.map_cons, List.nodup_cons] at distinct
    have remaining : queue.leaves.Perm (tree.queue.leaves.filter (·.node ∉ [id])) := by
      have rest : queue.leaves.filter (·.node ∉ [id]) = queue.leaves := by
        apply List.filter_eq_self.2
        intro other member
        rw [decide_eq_true_eq, List.mem_singleton]
        intro here
        exact distinct.1 (List.mem_map.2 ⟨other, member, here.trans node.symm⟩)
      have parted := parted.filter (·.node ∉ [id])
      rw [List.filter_cons_of_neg (by simp [node]), rest] at parted
      exact parted
    refine ⟨⟨fun _ => rfl, remaining, rfl, fun sound => sound, rfl⟩, fun other same => ?_⟩
    cases same
    exact ⟨entry, parted.mem_iff.1 List.mem_cons_self, node⟩

theorem mem_drain (queue : LeafQueue) (cutoff : Float) (id : NodeId) :
    id ∈ (queue.drain cutoff).1 ↔
      ∃ entry ∈ queue.leaves, entry.reaches cutoff = true ∧ entry.node = id := by
  unfold LeafQueue.drain
  simp only [List.mem_map, List.mem_filter, and_assoc]

theorem nodup_drain (tidy : tree.Tidy) (cutoff : Float) :
    (tree.queue.drain cutoff).1.Nodup :=
  tidy.distinct.sublist (List.filter_sublist.map _)

/-- The leaves that a cutoff takes out leave the queue, and no others. -/
theorem drain_sheds (tidy : tree.Tidy) (cutoff : Float) :
    Sheds [] (tree.queue.drain cutoff).1 tree
      { tree with queue := (tree.queue.drain cutoff).2 } := by
  have kept := tree.queue.drain_perm cutoff
  refine ⟨fun _ => rfl, kept.trans (.of_eq (List.filter_congr ?_)), rfl, fun sound => sound, rfl⟩
  intro entry member
  rw [Bool.eq_iff_iff, decide_eq_true_eq, mem_drain, Bool.not_eq_true']
  constructor
  · intro below reached
    obtain ⟨other, there, reaches, node⟩ := reached
    rw [tidy.eq_of_node there member node, below] at reaches
    cases reaches
  · intro stays
    cases reaches : entry.reaches cutoff with
    | false => rfl
    | true => exact absurd ⟨entry, member, reaches, rfl⟩ stays

/-- One more of the leaves that were taken out of the queue is closed. -/
theorem Sheds.close {tree' tree'' : Tree} {gone out : List NodeId}
    (sheds : Sheds gone out tree tree') (closed : Sheds [id] [id] tree' tree'')
    (member : id ∈ out) : Sheds (gone ++ [id]) out tree tree'' := by
  apply (sheds.trans closed).congr (fun _ => Iff.rfl)
  intro other
  simp only [List.mem_append, List.mem_singleton]
  constructor
  · exact .inl
  · rintro (there | rfl)
    · exact there
    · exact member

/-- The leaves that a cutoff takes out are closed, and no others. -/
theorem pruneLeaves_sheds (tidy : s.own.Tidy) (cutoff : Float) :
    (pruneLeaves cutoff).Yields s fun _ s' => ∃ pruned, Sheds pruned pruned s.own s'.own ∧
      ∀ id ∈ pruned, s.own.Exceeds cutoff id := by
  have drained := drain_sheds tidy cutoff
  have taken := mem_drain s.own.queue cutoff
  unfold Yields pruneLeaves
  rw [ensures_bind, ensures_onOwn, ensures_modifyGet]
  dsimp only
  generalize (s.own.queue.drain cutoff).1 = pruned at taken drained
  generalize (s.own.queue.drain cutoff).2 = queue at drained
  rw [ensures_bind]
  let before (rest : List NodeId) (s' : Linked Tree) : Prop :=
    ∃ gone, pruned = gone ++ rest ∧ Sheds gone pruned s.own s'.own
  have start : before pruned ⟨{ s.own with queue := queue }, s.lp⟩ := ⟨[], rfl, drained⟩
  have step (id : NodeId) (rest : List NodeId) (s' : Linked Tree)
      (reached : before (id :: rest) s') : (freeNode id).Yields s' fun _ => before rest := by
    obtain ⟨gone, split, sheds⟩ := reached
    have part : gone ⊆ pruned := by
      rw [split]
      exact List.subset_append_left _ _
    have member : id ∈ pruned := by
      rw [split]
      simp
    apply (freeNode_sheds (sheds.tidy part tidy) id).yields
    intro _ s'' freed
    exact ⟨gone ++ [id], by simp [split], sheds.close freed member⟩
  apply (ensures_forM before step pruned start).yields
  intro _ s' done
  obtain ⟨gone, all, sheds⟩ := done
  rw [List.append_nil] at all
  subst all
  rw [ensures_bind, ensures_emitIf, ensures_pure]
  refine ⟨pruned, sheds, fun id member => ?_⟩
  obtain ⟨entry, there, reaches, node⟩ := (taken id).1 member
  exact ⟨entry, there, node, of_decide_eq_true reaches⟩

end BranchCutPrice.Tree
