import BranchCutPrice.Proofs.Content
import BranchCutPrice.Proofs.Lineage
import BranchCutPrice.Proofs.Refusals
import BranchCutPrice.Tree.Removal

/-!
Removing nodes. In a shaped and settled state what a node held can be released and its
parent can count a child less, so a removal that begins is carried through to the last node
that it empties.
-/

namespace BranchCutPrice.Tree

open BranchCutPrice.Action Relaxation

variable {s : Linked Tree} {owed : Holdings} {id : NodeId} {node : Node}

/-- What was held can be released. -/
theorem releasePayload_ensures {lp : Relaxation} (payload : Payload)
    (balanced : lp.Balanced (owed + payload.holdings)) :
    (releasePayload payload).Ensures lp (fun _ lp' => lp'.Balanced owed ∧ Still lp lp')
      (fun _ _ => False) := by
  unfold releasePayload
  unfold Payload.holdings at balanced
  rw [ensures_bind]
  have bases : (payload.basis?.toList.forM releaseBasis).Ensures lp
      (fun _ lp' => lp'.Balanced (owed + .ofRows payload.rows) ∧ Still lp lp')
      (fun _ _ => False) := by
    cases warm : payload.basis? with
    | none =>
      rw [warm] at balanced
      refine ⟨?_, .rfl⟩
      rw [← add_assoc] at balanced
      exact add_zero (owed + .ofRows payload.rows) ▸ balanced
    | some basis =>
      rw [warm, ← add_assoc] at balanced
      change (releaseBasis basis >>= fun _ => pure ()).Ensures lp _ _
      rw [ensures_bind]
      exact releaseBasis_ensures balanced
  apply bases.imp
  · intro _ lp' released
    apply (releaseRows_ensures payload.rows released.1).imp
    · intro _ _ done
      exact ⟨done.1, released.2.trans done.2⟩
    · intro _ _ no
      exact no
  · intro _ _ no
    exact no

theorem take_ensures {tree : Tree} (found : tree.nodes.get? id = some node) :
    (take id).Ensures tree
      (fun taken tree' => taken = node ∧ tree' = { tree with
        nodes := tree.nodes.erase id
        stats := { tree.stats with freed := tree.stats.freed + 1 } })
      (fun _ _ => False) := by
  unfold take
  rw [ensures_bind]
  apply ensures_read.2
  constructor
  · intro taken same
    rw [node_ok.2 found] at same
    cases same
    exact ⟨rfl, rfl⟩
  · intro e refused
    rw [node_ok.2 found] at refused
    cases refused

theorem detach_ensures {tree : Tree} (found : tree.nodes.get? id = some node) :
    (detach id).Ensures tree
      (fun taken tree' => taken = node ∧
        ∀ loaded, tree'.desk loaded = (tree.desk loaded).without id (tree.nodes.erase id))
      (fun _ _ => False) := by
  unfold detach
  rw [ensures_bind]
  apply (take_ensures found).imp
  · intro taken tree' done
    rw [done.2, ensures_bind, ensures_modify]
    exact ⟨done.1, fun _ => rfl⟩
  · intro _ _ no
    exact no

/-- The parent of a node of a shaped tree can count a child less. -/
private theorem parent_ready (shaped : s.desk.Shaped) (found : s.own.nodes.get? id = some node)
    (childless : node.payload.children = 0) {above : NodeId} (parent : node.parent = some above) :
    ∃ upper payload, (s.own.nodes.erase id).get? above = some upper ∧
      upper.payload.releaseChild above.index = .ok payload ∧ node.depth = upper.depth + 1 := by
  obtain ⟨upper, foundUpper, inner, next⟩ := shaped.parent id node above found parent
  have different : above ≠ id := by
    intro same
    have children := shaped.not_childless found found (same ▸ parent)
    omega
  have children := shaped.not_childless foundUpper found parent
  obtain ⟨payload, released⟩ := Payload.releaseChild_live inner children above.index
  refine ⟨upper, payload, ?_, released, next⟩
  rw [SlotTable.get?_erase, if_neg different]
  exact foundUpper

theorem releaseChild_ensures {tree : Tree} {above : NodeId} {upper : Node} {payload : Payload}
    (found : tree.nodes.get? above = some upper)
    (released : upper.payload.releaseChild above.index = .ok payload) :
    (releaseChild above).Ensures tree
      (fun remaining tree' => remaining = payload.children ∧
        tree' = tree.setPayload above upper payload)
      (fun _ _ => False) := by
  unfold releaseChild
  rw [ensures_bind]
  apply ensures_read.2
  constructor
  · intro node same
    rw [node_ok.2 found] at same
    cases same
    rw [ensures_bind, released, ensures_resume_ok, ensures_bind, ensures_modify]
    exact ⟨rfl, rfl⟩
  · intro e refused
    rw [node_ok.2 found] at refused
    cases refused

/-- The state once the parent of the node that is gone counts a child less. -/
private theorem lowered {middle : Linked Tree} (found : s.own.nodes.get? id = some node)
    (childless : node.payload.children = 0) {above : NodeId} (parent : node.parent = some above)
    {upper : Node} {payload : Payload}
    (foundUpper : (s.own.nodes.erase id).get? above = some upper)
    (counted : upper.payload.releaseChild above.index = .ok payload)
    (settled : Settled middle owed)
    (without : middle.desk = s.desk.without id (s.own.nodes.erase id)) :
    Settled (Linked.mk (middle.own.setPayload above upper payload) middle.lp) owed ∧
      Move .fell s.desk (Linked.mk (middle.own.setPayload above upper payload) middle.lp).desk := by
  have nodes : middle.own.nodes = s.own.nodes.erase id := congrArg Desk.nodes without
  rw [← nodes] at foundUpper
  obtain ⟨_, _, rows, _, _, basis⟩ := Payload.releaseChild_ok counted
  constructor
  · exact settled.congr (nodeHoldings_rewrite foundUpper (Payload.holdings_congr rows basis))
  · change Move .fell s.desk { middle.desk with
      nodes := middle.own.nodes.set above { upper with payload := payload } }
    rw [nodes] at foundUpper ⊢
    rw [without]
    exact .fell found childless parent foundUpper counted

/-- Neither a stale handle nor a wrong count stops a removal on its way up. -/
theorem freeUpwards_ensures {steps : Nat} (settled : Settled s owed) (shaped : s.desk.Shaped)
    (found : s.own.nodes.get? id = some node) (childless : node.payload.children = 0)
    (enough : node.depth < steps) :
    (freeUpwards steps id).Ensures s
      (fun _ s' => Settled s' owed ∧ Moves {.fell} s.desk s'.desk) (fun _ _ => False) := by
  induction steps generalizing s id node with
  | zero => omega
  | succ steps ih =>
    unfold freeUpwards
    rw [ensures_bind, ensures_onOwn]
    apply (detach_ensures found).imp
    · intro taken tree' detached
      obtain ⟨rfl, desk⟩ := detached
      have nodes : tree'.nodes = s.own.nodes.erase id := congrArg Desk.nodes (desk [])
      have given : s.lp.Balanced (owed + nodeHoldings tree'.nodes + taken.payload.holdings) := by
        rw [nodes, add_assoc, nodeHoldings_erase found]
        exact settled
      rw [ensures_bind, ensures_onLp]
      apply (releasePayload_ensures taken.payload given).imp
      · intro _ lp' released
        rw [ensures_bind, ensures_emit]
        have settled' : Settled (Linked.mk tree' lp') owed := released.1
        have without : (Linked.mk tree' lp').desk = s.desk.without id (s.own.nodes.erase id) := by
          unfold Linked.desk
          rw [desk, released.2.loadedRows]
        cases parent : taken.parent with
        | none =>
          dsimp only
          rw [ensures_pure, without]
          have move := Move.fellRoot (show s.desk.nodes.get? id = some taken from found) childless
            parent
          exact ⟨settled', .one move (Set.mem_singleton _)⟩
        | some above =>
          obtain ⟨upper, payload, foundUpper, counted, next⟩ :=
            parent_ready shaped found childless parent
          obtain ⟨settled'', move⟩ := lowered found childless parent foundUpper counted settled'
            without
          have moves := Moves.one move (Set.mem_singleton Deed.fell)
          rw [← nodes] at foundUpper
          dsimp only
          rw [ensures_bind, ensures_onOwn]
          apply (releaseChild_ensures foundUpper counted).imp
          · intro remaining tree'' done
            rw [done.1, done.2]
            by_cases last : payload.children = 0
            · rw [if_pos last]
              have shaped' := moves.shaped_of_shrinking (by simp) shaped
              have foundHere : (tree'.setPayload above upper payload).nodes.get? above =
                  some { upper with payload := payload } :=
                (SlotTable.get?_set foundUpper _ above).trans (if_pos rfl)
              have shorter : upper.depth < steps := by
                omega
              apply (ih settled'' shaped' foundHere last shorter).imp
              · intro _ s'' freed
                exact ⟨freed.1, moves.trans freed.2⟩
              · intro _ _ no
                exact no
            · rw [if_neg last]
              exact ⟨settled'', moves⟩
          · intro _ _ no
            exact no
      · intro _ _ no
        exact no
    · intro _ _ no
      exact no

/-- Why a node is not removed. -/
def Unremovable (tree : Tree) (id : NodeId) (e : Error) : Prop :=
  (tree.contains id = false ∧ e = id.stale) ∨
    ∃ node, tree.node id = .ok node ∧ 0 < node.payload.children ∧
      e = .hasChildren id.index node.payload.children

theorem Unremovable.counts {tree : Tree} {e : Error} (refused : Unremovable tree id e) :
    ¬e.Miscount := by
  obtain ⟨_, rfl⟩ | ⟨_, _, _, rfl⟩ := refused
  · exact id.stale_counts
  · simp [Error.miscount_iff]

theorem freeNode_ensures (settled : Settled s owed) (shaped : s.desk.Shaped) (id : NodeId) :
    (freeNode id).Ensures s
      (fun _ s' => Settled s' owed ∧ Moves {.fell} s.desk s'.desk)
      (fun e s' => s' = s ∧ Unremovable s.own id e) := by
  unfold freeNode
  rw [ensures_bind, ensures_get]
  dsimp only
  rw [ensures_bind]
  apply ensures_read.2
  constructor
  · intro node found
    split
    · rename_i children
      exact ⟨rfl, .inr ⟨node, found, children, rfl⟩⟩
    · rename_i childless
      have found := node_ok.1 found
      have depth := shaped.depth_lt (show s.desk.nodes.get? id = some node from found)
      have never := freeUpwards_ensures settled shaped found (by omega) depth
      apply never.imp
      · intro _ _ freed
        exact freed
      · intro _ _ no
        exact no.elim
  · intro e refused
    unfold Tree.node at refused
    cases found : s.own.nodes.get? id with
    | none =>
      rw [found] at refused
      cases refused
      refine ⟨rfl, .inl ⟨?_, rfl⟩⟩
      simp [Tree.contains, SlotTable.contains, found]
    | some node =>
      rw [found] at refused
      cases refused

theorem pruneLeaves_proceeds (settled : Settled s owed) (shaped : s.desk.Shaped)
    (cutoff : Float) :
    (pruneLeaves cutoff).Proceeds s fun s' =>
      Settled s' owed ∧ Moves {.fell} s.desk s'.desk := by
  unfold Proceeds pruneLeaves
  rw [ensures_bind, ensures_onOwn, ensures_modifyGet]
  dsimp only
  generalize (s.own.queue.drain cutoff).1 = leaves
  generalize (s.own.queue.drain cutoff).2 = queue
  rw [ensures_bind]
  let before (_ : List NodeId) (s' : Linked Tree) : Prop :=
    Settled s' owed ∧ Moves {.fell} s.desk s'.desk
  have start : before leaves ⟨{ s.own with queue := queue }, s.lp⟩ := by
    exact ⟨settled.congr rfl, .rfl⟩
  have step (id : NodeId) (rest : List NodeId) (s' : Linked Tree)
      (reached : before (id :: rest) s') :
      (freeNode id).Ensures s' (fun _ => before rest)
        (fun e s' => (Settled s' owed ∧ Moves {.fell} s.desk s'.desk) ∧ ¬e.Miscount) := by
    obtain ⟨settled', moves⟩ := reached
    have shaped' := moves.shaped_of_shrinking (by simp) shaped
    apply (freeNode_ensures settled' shaped' id).imp
    · intro _ s'' freed
      exact ⟨freed.1, moves.trans freed.2⟩
    · intro _ s'' refused
      obtain ⟨rfl, unremovable⟩ := refused
      exact ⟨⟨settled', moves⟩, unremovable.counts⟩
  apply (ensures_forM before step leaves start).imp
  · intro _ s' done
    rw [ensures_bind, ensures_emitIf]
    exact done
  · intro _ _ refused
    exact refused

/-- Part of the way through a clearance: the nodes still to go are there, those gone count
as freed, and nothing else has changed. -/
private structure Clearing (s s' : Linked Tree) (owed : Holdings) (gone : List NodeId) : Prop where
  settled : Settled s' owed
  own : s'.own = { s.own with
    nodes := s.own.nodes.eraseAll gone
    stats := { s.own.stats with freed := s.own.stats.freed + gone.length } }
  loaded : s'.lp.loadedRows = s.lp.loadedRows

private theorem Clearing.step {s' : Linked Tree} {gone : List NodeId} {rest : List NodeId}
    (clearing : Clearing s s' owed gone) (shaped : s.desk.Shaped)
    (split : s.own.nodes.handles = gone ++ id :: rest) :
    (do
      let node ← onOwn (take id)
      onLp (releasePayload node.payload) : Action (Linked Tree) Unit).Ensures s'
      (fun _ s'' => Clearing s s'' owed (gone ++ [id])) (fun _ _ => False) := by
  obtain ⟨settled, own, loaded⟩ := clearing
  have distinct := SlotTable.handles_nodup shaped.fits
  rw [show s.desk.nodes.handles = _ from split, List.nodup_append] at distinct
  have fresh : id ∉ gone := by
    intro member
    exact distinct.2.2 id member id List.mem_cons_self rfl
  have member : id ∈ s.desk.nodes.handles := by
    rw [show s.desk.nodes.handles = _ from split]
    simp
  obtain ⟨node, found⟩ := (SlotTable.mem_handles shaped.fits).1 member
  have nodes : s'.own.nodes = s.own.nodes.eraseAll gone := congrArg Tree.nodes own
  have found' : s'.own.nodes.get? id = some node := by
    rw [nodes, SlotTable.get?_eraseAll, if_neg fresh]
    exact found
  rw [ensures_bind, ensures_onOwn]
  apply (take_ensures found').imp
  · intro taken tree' done
    obtain ⟨rfl, same⟩ := done
    have given : s'.lp.Balanced (owed + nodeHoldings tree'.nodes + taken.payload.holdings) := by
      rw [same]
      change s'.lp.Balanced (owed + nodeHoldings (s'.own.nodes.erase id) + _)
      rw [add_assoc, nodeHoldings_erase found']
      exact settled
    rw [ensures_onLp]
    apply (releasePayload_ensures taken.payload given).imp
    · intro _ lp' released
      refine ⟨released.1, ?_, released.2.loadedRows.trans loaded⟩
      rw [same, own]
      simp [SlotTable.eraseAll, add_assoc]
    · intro _ _ no
      exact no
  · intro _ _ no
    exact no

theorem clear_ensures (settled : Settled s owed) (shaped : s.desk.Shaped) :
    clear.Ensures s
      (fun _ s' => (Settled s' owed ∧ Moves {.fell} s.desk s'.desk) ∧ s'.own.focus = none ∧
        s'.lp.loadedRows = s.lp.loadedRows)
      (fun _ _ => False) := by
  unfold clear
  rw [ensures_bind, ensures_get, ensures_bind]
  let before (rest : List NodeId) (s' : Linked Tree) : Prop :=
    ∃ gone, s.own.nodes.handles = gone ++ rest ∧ Clearing s s' owed gone
  have start : before s.own.nodes.handles s := by
    exact ⟨[], rfl, settled, rfl, rfl⟩
  have step (id : NodeId) (rest : List NodeId) (s' : Linked Tree)
      (reached : before (id :: rest) s') :
      (do
        let node ← onOwn (take id)
        onLp (releasePayload node.payload) : Action (Linked Tree) Unit).Ensures s'
        (fun _ => before rest) (fun _ _ => False) := by
    obtain ⟨gone, split, clearing⟩ := reached
    apply (clearing.step shaped split).imp
    · intro _ s'' done
      refine ⟨gone ++ [id], ?_, done⟩
      rw [split, List.append_assoc]
      rfl
    · intro _ _ no
      exact no
  apply (ensures_forM before step _ start).imp
  · intro _ s' done
    obtain ⟨gone, all, settled', own, loaded⟩ := done
    rw [List.append_nil] at all
    subst all
    rw [ensures_onOwn, ensures_modify]
    refine ⟨⟨settled'.congr rfl, ?_⟩, rfl, loaded⟩
    have wiped : ({ s'.own with
        queue := .empty s'.own.settings.selection
        root := none
        focus := none
        activePath := [] } : Tree).desk s'.lp.loadedRows = { s.desk with
        nodes := s.desk.nodes.eraseAll s.desk.nodes.handles
        root := none
        focus := none
        freed := s.desk.freed + s.desk.nodes.handles.length } := by
      rw [own]
      exact congrArg (Desk.mk _ _ _ _ _) loaded
    change Moves {.fell} s.desk (Tree.desk _ s'.lp.loadedRows)
    rw [wiped]
    exact .one .wipe (Set.mem_singleton _)
  · intro _ _ no
    exact no

end BranchCutPrice.Tree
