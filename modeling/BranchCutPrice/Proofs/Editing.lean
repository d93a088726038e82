import BranchCutPrice.Proofs.Changes

/-!
The operations on a tree change it, refused or not. They install no solution and unload no column.
-/

namespace BranchCutPrice

open BranchCutPrice.Tree

namespace Action.Respects

variable {α : Type} {may : Set Deed} {torn turns : Prop}

theorem onLp {act : Action Relaxation α}
    (shifts : act.Respects (Relaxation.Shifted False False)) :
    (onLp act).Respects (Linked.Alters may torn turns) :=
  shifts.run fun _ _ shifted => ⟨.rfl, shifted⟩

theorem onOwn {act : Action Tree α} (changes : act.Respects (Changed may torn turns)) :
    (onOwn act).Respects (Linked.Alters may torn turns) :=
  changes.run fun _ _ changed => ⟨changed, .rfl⟩

end Action.Respects

namespace Tree

open BranchCutPrice.Action Relaxation

variable {tree : Tree} {may : Set Deed} {torn turns : Prop}

/-! ### Content -/

theorem recordRow_changed (tree : Tree) (id : NodeId) (row : RowId) :
    Changed may torn turns tree (tree.recordRow id row) := by
  unfold recordRow
  cases found : tree.nodes.get? id with
  | none => exact .rfl
  | some node =>
    dsimp only
    split
    · rename_i basis added leaf
      have kind : Payload.kind (.leaf basis (added ++ [row])) = .leaf ↔ node.kind = .leaf := by
        unfold Node.kind
        rw [leaf]
        exact Iff.rfl
      exact Change.changed (.write found kind rfl rfl rfl rfl rfl)
    · exact .rfl

theorem addRow_changes (id : NodeId) (row : RowId) :
    (addRow id row).Respects (Linked.Alters may torn turns) := by
  unfold addRow
  apply respects_get.bind
  intro s
  split
  · exact respects_throw _
  · apply (respects_read _).bind
    intro node
    apply (loadRow_shifts row).onLp.bind
    intro _
    apply (captureRow_shifts row).onLp.bind
    intro _
    exact (respects_modify fun tree => recordRow_changed tree id row).onOwn

theorem addDomainChange_changes (id : NodeId) (change : BoundChange) :
    (addDomainChange id change).Respects (Changed may torn turns) := by
  apply respects_change
  intro tree tree' changed
  split at changed
  · cases changed
  · cases found : tree.node id with
    | error e => simp [found, bind, Except.bind] at changed
    | ok node =>
      rw [found] at changed
      cases changed
      exact Change.changed (.write (node_ok.1 found) Iff.rfl rfl rfl rfl rfl rfl)

theorem setConstraints_changes (id : NodeId) (constraints : List Nat) :
    (setConstraints id constraints).Respects (Changed may torn turns) := by
  apply respects_change
  intro tree tree' changed
  cases found : tree.node id with
  | error e => simp [found, bind, Except.bind] at changed
  | ok node =>
    rw [found] at changed
    cases changed
    exact Change.changed (.write (node_ok.1 found) Iff.rfl rfl rfl rfl rfl rfl)

theorem kind_of_getLeaf {id : NodeId} {node : Node} (found : tree.getLeaf id = .ok node) :
    tree.nodes.get? id = some node ∧ node.kind = .leaf := by
  obtain ⟨there, payload⟩ := getLeaf_ok.1 found
  exact ⟨there, Payload.kind_leaf.2 payload⟩

theorem raiseBound_changes (id : NodeId) (bound : Float) :
    (raiseBound id bound).Respects (Changed may torn turns) := by
  unfold raiseBound
  split
  · exact respects_throw _
  · rename_i defined
    apply Respects.of_read
    intro tree node found
    obtain ⟨there, leaf⟩ := kind_of_getLeaf found
    split
    · exact .rfl
    · rename_i above
      exact Change.changed (.raise there leaf (Bool.eq_false_iff.2 defined) above)

/-! ### The queue -/

theorem insertLeaf_changes (id : NodeId) : (insertLeaf id).Respects (Changed may torn turns) := by
  apply respects_change
  intro tree tree' changed
  cases found : tree.getLeaf id with
  | error e => simp [found, bind, Except.bind] at changed
  | ok node =>
    simp only [found, bind, Except.bind, pure, Except.pure] at changed
    obtain ⟨there, leaf⟩ := kind_of_getLeaf found
    split at changed
    · cases changed
      exact .rfl
    · rename_i absent
      cases changed
      exact Change.changed (.enqueue there leaf absent)

theorem removeLeaf_changes (id : NodeId) : (removeLeaf id).Respects (Changed may torn turns) := by
  apply respects_change
  intro tree tree' changed
  split at changed
  · cases changed
    have part := (tree.queue.erase_perm id).subperm.trans List.filter_sublist.subperm
    exact Change.changed (.dequeue (.inl rfl) part)
  · cases changed

theorem popLeaf_changes : popLeaf.Respects (Changed may torn turns) := by
  intro tree
  unfold popLeaf
  apply ensures_modifyGet.2
  cases popped : tree.queue.pop? with
  | none => exact .rfl
  | some next =>
    obtain ⟨id, queue⟩ := next
    obtain ⟨leaf, _, parted⟩ := LeafQueue.pop?_perm _ popped
    have selection : queue.selection = tree.queue.selection := by
      unfold LeafQueue.pop? at popped
      obtain ⟨best, _, same⟩ := Option.map_eq_some_iff.1 popped
      cases same
      rfl
    have part := (List.sublist_cons_self leaf queue.leaves).subperm.trans parted.subperm
    exact Change.changed (.dequeue (.inl selection) part)

/-! ### Solving -/

theorem leafToFork_changes (id : NodeId) :
    (leafToFork id).Respects (Linked.Alters may torn turns) := by
  unfold leafToFork
  apply Respects.of_read
  intro s node found
  split
  · rename_i basis added leaf
    have solved : Payload.kind (.fork added 0) ≠ .leaf := nofun
    have changed : Changed may torn turns s.own { s.own.setPayload id node (.fork added 0) with
        queue := s.own.queue.erase id } :=
      Change.changed (.solve (node_ok.1 found) solved)
    apply ensures_bind.2
    rw [ensures_onOwn, ensures_modify]
    have rest : (onLp (releaseBasis basis) >>= fun _ =>
        emit (.becameFork id.index)).Respects (Linked.Alters may torn turns) :=
      (releaseBasis_shifts basis).onLp.bind fun _ => respects_emit _
    apply rest.after
    exact ⟨changed.trans (Change.changed (.beside rfl rfl rfl rfl rfl rfl)), .rfl⟩
  · exact ⟨.rfl, .rfl⟩

theorem forkToSubroot_changes (id : NodeId) :
    (forkToSubroot id).Respects (Linked.Alters may torn turns) := by
  unfold forkToSubroot
  apply Respects.of_read
  intro s node found
  split
  · rename_i added children fork
    have inner : node.kind ≠ .leaf := by
      unfold Node.kind
      rw [fork]
      nofun
    have kind : Payload.kind (.subroot s.lp.loadedRows children) = .leaf ↔ node.kind = .leaf :=
      iff_of_false nofun inner
    have changed : Changed may torn turns s.own
        (s.own.setPayload id node (.subroot s.lp.loadedRows children)) :=
      Change.changed (.write (node_ok.1 found) kind rfl rfl rfl rfl rfl)
    have rest : (onLp (releaseRows added) >>= fun _ =>
        emit (.becameSubroot id.index s.lp.loadedRows.length)).Respects
          (Linked.Alters may torn turns) :=
      (releaseRows_shifts added).onLp.bind fun _ => respects_emit _
    apply ensures_bind.2
    apply ensures_read.2
    refine ⟨fun _ _ => ?_, fun _ _ => ⟨.rfl, .rfl⟩⟩
    rw [ensures_bind, ensures_get, ensures_bind, ensures_onLp]
    apply (captureRows_shifts s.lp.loadedRows s.lp).imp
    · intro _ lp' same
      rw [ensures_bind, ensures_onOwn, ensures_modify]
      apply rest.after
      exact ⟨changed.trans (Change.changed (.beside rfl rfl rfl rfl rfl rfl)), same⟩
    · intro _ _ same
      exact ⟨.rfl, same⟩
  · exact ⟨.rfl, .rfl⟩

theorem promote_changes (id : NodeId) : (promote id).Respects (Linked.Alters may torn turns) := by
  unfold promote
  apply (respects_read _).bind
  intro node
  apply (respects_read _).bind
  intro _
  apply (respects_read _).bind
  intro expected
  apply respects_get.bind
  intro before
  apply (leafToFork_changes id).bind
  intro _
  apply (respects_read _).bind
  intro delta
  apply respects_get.bind
  intro after
  split
  · apply (forkToSubroot_changes id).bind
    intro _
    exact respects_pure _
  · exact respects_pure _

/-! ### Moving the focus -/

theorem reload_shifts (wanted : List RowId) : (reload wanted).Respects (Shifted False False) := by
  unfold reload
  apply respects_get.bind
  intro lp
  apply (shrinkRows_shifts _).bind
  intro _
  exact (Respects.forM loadRow_shifts _).bind fun _ => respects_pure _

/-- Once its rows are loaded a node becomes the focus. -/
theorem turn_changes (allowed : turns) (id : NodeId) : (do
    onOwn (activate id)
    onOwn (modify fun tree => { tree with focus := some id }) :
      Action (Linked Tree) Unit).Respects (Linked.Alters may torn turns) := by
  intro s
  rw [Reaches, ensures_bind, ensures_onOwn]
  apply ensures_change.2
  constructor
  · intro tree' changed
    cases walked : s.own.pathTo id with
    | error e => simp [walked, bind, Except.bind] at changed
    | ok path =>
      rw [walked] at changed
      cases changed
      rw [ensures_onOwn, ensures_modify]
      exact ⟨Change.changed (.turn allowed walked), .rfl⟩
  · intro _ _
    exact ⟨.rfl, .rfl⟩

theorem focusOn_changes (allowed : turns) (id : NodeId) :
    (focusOn id).Respects (Linked.Alters may torn turns) := by
  unfold focusOn
  apply (respects_read _).bind
  intro wanted
  apply (respects_read _).bind
  intro basis
  apply respects_get.bind
  intro s
  apply (reload_shifts wanted).onLp.bind
  intro edits
  apply (Respects.forM (fun basis => (setBasis_shifts basis).onLp) _).bind
  intro _
  rw [← bind_assoc]
  exact (turn_changes allowed id).bind fun _ => (respects_emit _).bind fun _ => respects_pure _

/-! ### Creation -/

theorem Counted.changed {counted : SlotTable .node Node} {parent : Option NodeId} {depth : Nat}
    (ready : Counted tree.nodes parent counted depth) :
    Changed may torn turns tree { tree with nodes := counted } := by
  cases ready with
  | top => exact .rfl
  | under found captured =>
    obtain ⟨_, kind, _⟩ := Payload.captureChild_ok captured
    exact Change.changed (.write found (by unfold Node.kind; rw [kind]) rfl rfl rfl rfl rfl)

/-- Counting a child does not change what it takes over. -/
theorem Counted.heritage {counted : SlotTable .node Node} {parent : Option NodeId} {depth : Nat}
    (ready : Counted tree.nodes parent counted depth) :
    { tree with nodes := counted }.heritage parent = tree.heritage parent := by
  cases ready with
  | top => rfl
  | @under above upper payload found captured =>
    obtain ⟨_, kind, _⟩ := Payload.captureChild_ok captured
    let counts : Node := { upper with payload := payload }
    let tree' : Tree := { tree with nodes := tree.nodes.set above counts }
    have found' : tree'.nodes.get? above = some counts :=
      (SlotTable.get?_set found counts above).trans (if_pos rfl)
    have heritage : tree'.heritage (some above) =
        if counts.kind = .leaf then .error (.leafParent above.index)
        else .ok (upper.bound, upper.depth + 1) :=
      heritage_some found'
    rw [show counts.kind = upper.kind from kind] at heritage
    exact heritage.trans (heritage_some found).symm

theorem createNode_changes (allowed : .sprout ∈ may) (parent : Option NodeId) (basis : BasisId) :
    (createNode parent basis).Respects (Linked.Alters may torn turns) := by
  unfold createNode
  apply Respects.of_read
  intro s ⟨bound, depth⟩ inherits
  dsimp only
  apply ensures_bind.2
  rw [ensures_onLp]
  apply (captureBasis_shifts basis s.lp).imp
  · intro _ lp' solution
    obtain ⟨counted, ready, counts⟩ := counted_of_heritage inherits lp'
    rw [ensures_bind]
    apply counts.imp
    · intro _ s' same
      rw [same, ensures_bind, ensures_onOwn]
      unfold allocate
      rw [ensures_modifyGet, ensures_bind, ensures_emit]
      let child : Node := {
        payload := .leaf basis []
        parent := parent
        constraints := []
        domain := []
        bound := bound
        depth := depth
        active := false
        seq := s.own.nextSeq }
      have created : Changed may torn turns { s.own with nodes := counted } { s.own with
          nodes := (counted.insert child).2
          nextSeq := s.own.nextSeq + 1 } :=
        Change.changed (.create allowed (ready.heritage.trans inherits) rfl rfl)
      refine ⟨ready.changed.trans (created.trans ?_), solution⟩
      exact Change.changed (.beside rfl rfl rfl rfl rfl rfl)
    · intro _ _ no
      exact no.elim
  · intro _ _ solution
    exact ⟨.rfl, solution⟩

theorem createRoot_changes (allowed : .sprout ∈ may) (basis : BasisId) :
    (createRoot basis).Respects (Linked.Alters may torn turns) := by
  unfold createRoot
  apply respects_get.bind
  intro s
  split
  · exact respects_throw _
  · apply (createNode_changes allowed none basis).bind
    intro id
    refine Respects.bind (Respects.onOwn (respects_modify fun tree => ?_)) fun _ => respects_pure _
    exact Change.changed (.beside rfl rfl rfl rfl rfl rfl)

/-! ### Removal -/

theorem detach_changes (allowed : .fell ∈ may) (id : NodeId) :
    (detach id).Respects (Changed may torn turns) := by
  intro tree
  unfold detach take
  rw [Reaches, ensures_bind, ensures_bind]
  apply ensures_read.2
  refine ⟨fun node _ => ?_, fun _ _ => .rfl⟩
  rw [ensures_bind, ensures_modify, ensures_pure, ensures_bind, ensures_modify, ensures_pure]
  have removed : Changed may torn turns tree
      ({ tree with nodes := tree.nodes.erase id }.forget id) :=
    Change.changed (.remove allowed id)
  exact removed.trans (Change.changed (.beside rfl rfl rfl rfl rfl rfl))

theorem releaseChild_changes (id : NodeId) :
    (releaseChild id).Respects (Changed may torn turns) := by
  unfold releaseChild
  apply Respects.of_read
  intro tree node found
  cases released : node.payload.releaseChild id.index with
  | error e => exact .rfl
  | ok payload =>
    obtain ⟨_, kind, _⟩ := Payload.releaseChild_ok released
    rw [Reaches, ensures_bind, ensures_resume_ok, ensures_bind, ensures_modify, ensures_pure]
    have same : payload.kind = .leaf ↔ node.kind = .leaf := by
      unfold Node.kind
      rw [kind]
    exact Change.changed (.write (node_ok.1 found) same rfl rfl rfl rfl rfl)

theorem releasePayload_shifts (payload : Payload) :
    (releasePayload payload).Respects (Shifted False False) :=
  (Respects.forM releaseBasis_shifts _).bind fun _ => releaseRows_shifts _

theorem freeUpwards_changes (allowed : .fell ∈ may) (steps : Nat) (id : NodeId) :
    (freeUpwards steps id).Respects (Linked.Alters may torn turns) := by
  induction steps generalizing id with
  | zero => exact respects_throw _
  | succ steps ih =>
    unfold freeUpwards
    apply (detach_changes allowed id).onOwn.bind
    intro node
    apply (releasePayload_shifts _).onLp.bind
    intro _
    apply (respects_emit _).bind
    intro _
    split
    · exact respects_pure _
    · apply (releaseChild_changes _).onOwn.bind
      intro remaining
      split
      · exact ih _
      · exact respects_pure _

theorem freeNode_changes (allowed : .fell ∈ may) (id : NodeId) :
    (freeNode id).Respects (Linked.Alters may torn turns) := by
  unfold freeNode
  apply respects_get.bind
  intro s
  apply (respects_read _).bind
  intro node
  split
  · exact respects_throw _
  · exact freeUpwards_changes allowed _ id

theorem pruneLeaves_changes (allowed : .fell ∈ may) (cutoff : Float) :
    (pruneLeaves cutoff).Respects (Linked.Alters may torn turns) := by
  unfold pruneLeaves
  have drained : (modifyGet fun tree =>
      ((tree.queue.drain cutoff).1, { tree with queue := (tree.queue.drain cutoff).2 }) :
      Action Tree (List NodeId)).Respects (Changed may torn turns) := by
    intro tree
    have part := (tree.queue.drain_perm cutoff).subperm.trans List.filter_sublist.subperm
    exact Change.changed (.dequeue (.inl rfl) part)
  apply drained.onOwn.bind
  intro leaves
  apply (Respects.forM (freeNode_changes allowed) leaves).bind
  intro _
  apply (respects_emitIf _ _).bind
  intro _
  exact respects_pure _

theorem clear_changes (allowed : .fell ∈ may) (open' : torn) :
    clear.Respects (Linked.Alters may torn turns) := by
  have taken (id : NodeId) : (take id).Respects (Changed may torn turns) := by
    unfold take
    apply (respects_read _).bind
    intro node
    refine Respects.bind (respects_modify fun tree => ?_) fun _ => respects_pure _
    have torn : Changed may torn turns tree { tree with nodes := tree.nodes.erase id } :=
      Change.changed (.tear allowed open' id)
    exact torn.trans (Change.changed (.beside rfl rfl rfl rfl rfl rfl))
  unfold clear
  apply respects_get.bind
  intro s
  apply (Respects.forM (fun id =>
    (taken id).onOwn.bind fun node => (releasePayload_shifts _).onLp) _).bind
  intro _
  refine Respects.onOwn (respects_modify fun tree => ?_)
  have emptied : Changed may torn turns tree
      { tree with queue := .empty tree.settings.selection } :=
    Change.changed (.dequeue (.inr rfl) (List.nil_subperm))
  exact emptied.trans (Change.changed (.lose open' rfl rfl rfl rfl))

/-- Where everything held can be released, a clearance does not stop half way. -/
theorem clear_changed {s : Linked Tree} {owed : Holdings} (settled : Settled s owed)
    (shaped : s.desk.Shaped) (allowed : .fell ∈ may) :
    clear.Reaches s (Linked.Alters may torn turns s) := by
  have wiped : clear.Yields s fun _ s' => Changed may torn turns s.own s'.own := by
    unfold Yields clear
    rw [ensures_bind, ensures_get, ensures_bind]
    let before (rest : List NodeId) (s' : Linked Tree) : Prop :=
      ∃ gone, s.own.nodes.handles = gone ++ rest ∧ s'.own.nodes = s.own.nodes.eraseAll gone ∧
        s'.own.nextSeq = s.own.nextSeq ∧ s'.own.settings = s.own.settings
    have step (id : NodeId) (rest : List NodeId) (s' : Linked Tree)
        (reached : before (id :: rest) s') :
        (do
          let node ← onOwn (take id)
          onLp (releasePayload node.payload) : Action (Linked Tree) Unit).Yields s'
          fun _ => before rest := by
      obtain ⟨gone, split, nodes, nextSeq, settings⟩ := reached
      unfold Yields take
      rw [ensures_bind, ensures_onOwn, ensures_bind]
      apply yields_read.2
      intro node _
      rw [ensures_bind, ensures_modify, ensures_pure, ensures_onLp]
      apply yields_of_all
      intro _ _
      refine ⟨gone ++ [id], by rw [split, List.append_assoc]; rfl, ?_, nextSeq, settings⟩
      change s'.own.nodes.erase id = _
      rw [nodes]
      simp [SlotTable.eraseAll]
    have start : before s.own.nodes.handles s := ⟨[], rfl, rfl, rfl, rfl⟩
    apply (ensures_forM before step _ start).yields
    intro _ s' done
    obtain ⟨gone, all, nodes, nextSeq, settings⟩ := done
    rw [List.append_nil] at all
    subst all
    rw [ensures_onOwn, ensures_modify]
    have queue := congrArg (LeafQueue.empty ·.selection) settings
    exact Change.changed (.wipe allowed nodes queue nextSeq settings rfl rfl)
  -- the relaxation only gives up users, however far a clearance comes
  have same : clear.Respects (Linked.Alters may True turns) := clear_changes allowed trivial
  apply ((wiped.and (clear_ensures settled shaped)).and (same s)).imp
  · intro _ _ done
    exact ⟨done.1.1, done.2.lp⟩
  · intro _ _ no
    exact no.1.2.elim

end Tree

end BranchCutPrice
