import BranchCutPrice.Proofs.History
import BranchCutPrice.Proofs.Runs

/-!
The shape of the trees that runs build. Nodes name their parents and count their children,
and the counts are right; so walks towards the root end, a removal is carried through, and
the handle of a node that is gone names nothing until its slot was emptied so often that
its generation comes round.
-/

namespace BranchCutPrice

open BranchCutPrice.Action

/-! ### Trees -/

/-- Parents, children and depths fit together, and what is kept beside the nodes is right. -/
structure Tree.WellFormed (tree : Tree) : Prop where
  parent : ∀ id node above, tree.node id = .ok node → node.parent = some above →
    ∃ upper, tree.node above = .ok upper ∧ (upper.kind = .fork ∨ upper.kind = .subroot) ∧
      node.depth = upper.depth + 1
  children : ∀ id node, tree.node id = .ok node →
    node.payload.children = tree.nodes.entries.countP fun entry => entry.2.parent = some id
  leaf : ∀ id node, tree.node id = .ok node → node.kind = .leaf →
    ∀ other lower, tree.node other = .ok lower → lower.parent ≠ some id
  depth : ∀ id node, tree.node id = .ok node → (node.depth = 0 ↔ node.parent = none)
  /-- At most one node has no parent. -/
  root : ∀ id, tree.root = some id ↔ ∃ node, tree.node id = .ok node ∧ node.parent = none
  rooted : tree.root = none ↔ tree.size = 0
  counted : tree.stats.created = tree.stats.freed + tree.size
  occupied : tree.size = tree.nodes.slots.toList.countP (·.content.isSome)
  free : ∀ i, (tree.nodes.free.map UInt32.toNat).count i =
    if tree.nodes.slots[i]?.any (·.content.isNone) then 1 else 0

/-- The walks towards the root end, before their steps are used up. -/
structure Tree.Walkable (tree : Tree) : Prop where
  climbs : ∀ id stop, tree.contains id = true →
    ∃ path, Climbs tree.nodes stop id path ∧
      tree.ascend stop tree.nodes.slots.size id = .ok path
  lpRows : ∀ id, tree.contains id = true → ∃ rows, tree.lpRows id = .ok rows
  deltaChain : ∀ id, tree.contains id = true → ∃ delta, tree.deltaChain id = .ok delta
  activate : ∀ id, tree.contains id = true → (Tree.activate id tree).result = .ok ()

/-- Removals are refused only where there is nothing to remove, or too much. -/
structure Tree.Removable (tree : Tree) (lp : Relaxation) : Prop where
  freed : ∀ id node, tree.node id = .ok node → node.payload.children = 0 →
    (Tree.freeNode id ⟨tree, lp⟩).result = .ok ()
  refused : ∀ id e, (Tree.freeNode id ⟨tree, lp⟩).result = .error e → Tree.Unremovable tree id e
  cleared : (Tree.clear ⟨tree, lp⟩).result = .ok ()
  /-- Every parent can count a child less. -/
  released : ∀ id node above, tree.node id = .ok node → node.parent = some above →
    ∃ remaining, (Tree.releaseChild above tree).result = .ok remaining

namespace Tree

variable {tree : Tree} {lp : Relaxation} {loaded : List RowId} {owed : Holdings}

theorem wellFormed_of_shaped (shaped : (tree.desk loaded).Shaped) : tree.WellFormed := by
  have count (id : NodeId) : childCount tree.nodes id =
      tree.nodes.entries.countP fun entry => entry.2.parent = some id := by
    have total := SlotTable.total_eq_countP (fun node => decide (node.parent = some id)) tree.nodes
    rw [← total]
    simp [childCount]
  constructor
  · intro id node above found parent
    obtain ⟨upper, foundUpper, inner, next⟩ :=
      shaped.parent id node above (node_ok.1 found) parent
    refine ⟨upper, node_ok.2 foundUpper, ?_, next⟩
    cases kind : upper.kind with
    | leaf => exact absurd kind inner
    | fork => exact .inl rfl
    | subroot => exact .inr rfl
  · intro id node found
    rw [← count]
    exact shaped.children id node (node_ok.1 found)
  · intro id node found leaf other lower below parent
    obtain ⟨upper, foundUpper, inner, _⟩ :=
      shaped.parent other lower id (node_ok.1 below) parent
    have same : upper = node := Option.some.inj (foundUpper.symm.trans (node_ok.1 found))
    exact inner (same ▸ leaf)
  · intro id node found
    have found := node_ok.1 found
    constructor
    · intro zero
      cases parent : node.parent with
      | none => rfl
      | some above =>
        obtain ⟨_, _, _, next⟩ := shaped.parent id node above found parent
        omega
    · intro parent
      exact (shaped.top id node found parent).1
  · intro id
    constructor
    · intro root
      obtain ⟨node, found, parent⟩ := shaped.root id root
      exact ⟨node, node_ok.2 found, parent⟩
    · intro top
      obtain ⟨node, found, parent⟩ := top
      exact (shaped.top id node (node_ok.1 found) parent).2
  · have handles : tree.nodes.handles.length = tree.size := SlotTable.length_handles shaped.sound
    constructor
    · intro bare
      apply Nat.eq_zero_of_not_pos
      intro inhabited
      rw [← handles] at inhabited
      obtain ⟨id, member⟩ := List.exists_mem_of_length_pos inhabited
      obtain ⟨node, found⟩ := (SlotTable.mem_handles shaped.fits).1 member
      cases (shaped.stale_of_bare bare id).symm.trans found
    · intro empty
      cases root : tree.root with
      | none => rfl
      | some id =>
        obtain ⟨node, found, _⟩ := shaped.root id root
        have live : 0 < tree.size := SlotTable.live_pos shaped.sound found
        omega
  · exact shaped.counted
  · exact shaped.sound.live_eq_countP
  · exact shaped.sound.count_free shaped.fits

theorem walkable_of_shaped (shaped : (tree.desk loaded).Shaped) : tree.Walkable := by
  have live (id : NodeId) (here : tree.contains id = true) :
      ∃ node, tree.nodes.get? id = some node :=
    SlotTable.contains_iff.1 here
  constructor
  · intro id stop here
    obtain ⟨node, found⟩ := live id here
    obtain ⟨path, walked, climbs⟩ := ascend_live shaped stop found
    exact ⟨path, climbs, walked⟩
  · intro id here
    obtain ⟨node, found⟩ := live id here
    obtain ⟨rows, listed, _⟩ := lpRows_live shaped found
    exact ⟨rows, listed⟩
  · intro id here
    obtain ⟨node, found⟩ := live id here
    exact deltaChain_live shaped found
  · intro id here
    obtain ⟨node, found⟩ := live id here
    obtain ⟨path, walked⟩ := pathTo_live shaped found
    have turns : (activate id).Completes tree fun _ _ => True := by
      apply ensures_activate
      · intro _ _
        trivial
      · intro e lost
        rw [walked] at lost
        cases lost
    obtain ⟨_, ended, _⟩ := ensures_never turns
    exact ended

theorem removable_of_shaped (settled : Settled (Linked.mk tree lp) owed)
    (shaped : (tree.desk lp.loadedRows).Shaped) : tree.Removable lp := by
  have refused (id : NodeId) (e : Error)
      (ended : (freeNode id ⟨tree, lp⟩).result = .error e) : Unremovable tree id e :=
    (ensures_of_error ended (freeNode_ensures settled shaped id)).2
  constructor
  · intro id node found childless
    cases ended : (freeNode id ⟨tree, lp⟩).result with
    | ok => rfl
    | error e =>
      obtain ⟨stale, _⟩ | ⟨other, foundOther, children, _⟩ := refused id e ended
      · have live : tree.contains id = true := SlotTable.contains_iff.2 ⟨node, node_ok.1 found⟩
        rw [live] at stale
        cases stale
      · rw [found] at foundOther
        cases foundOther
        omega
  · exact refused
  · obtain ⟨_, ended, _⟩ := ensures_never (clear_ensures settled shaped)
    exact ended
  · intro id node above found parent
    have found : (tree.desk lp.loadedRows).nodes.get? id = some node := node_ok.1 found
    obtain ⟨upper, foundUpper, inner, _⟩ := shaped.parent id node above found parent
    have children := shaped.not_childless foundUpper found parent
    obtain ⟨payload, released⟩ := Payload.releaseChild_live inner children above.index
    obtain ⟨remaining, ended, _⟩ := ensures_never (releaseChild_ensures foundUpper released)
    exact ⟨remaining, ended⟩

end Tree

/-! ### Calls that remove nodes one by one -/

variable {ι : Type} [DecidableEq ι] [Inhabited ι]

/-- The calls that may count a child less. -/
def Call.Removes : Call ι → Prop
  | .tree _ (.freeNode _) | .tree _ (.pruneLeaves _) => True
  | .session .nextNode | .session (.finishNode _) | .session (.reportSolution _ _) => True
  | _ => False

section Removes

variable [Fintype ι] {w : World ι} {owed : Holdings}

/-- No removal is refused because of a wrong count. -/
theorem Call.removes_counts {call : Call ι} (removes : call.Removes) (kept : w.Kept owed)
    {e : Error} (refused : (call.perform w).result = .error e) : ¬e.Miscount := by
  cases call with
  | tree p call =>
    have shaped : (Linked.mk (w.trees p) w.lp).desk.Shaped := kept.shaped p
    obtain ⟨_, settled, _⟩ := (World.treeAt_frames p).enter kept.settled
    have refused : (call.perform ⟨w.trees p, w.lp⟩).result = .error e := refused
    cases call with
    | freeNode id =>
      have ensured := Tree.freeNode_ensures settled shaped id
      exact (ensures_of_error refused ensured).2.counts
    | pruneLeaves cutoff =>
      have ensured := Tree.pruneLeaves_proceeds settled shaped cutoff
      exact (ensures_of_error (discard_error refused) ensured).2
    | _ => exact removes.elim
  | session call =>
    have shaped : w.session.desk.Shaped := kept.shaped default
    obtain ⟨_, settled, _⟩ := World.sessionPart_frames.enter kept.settled
    have refused : (call.perform w.session).result = .error e := refused
    cases call with
    | nextNode =>
      have ensured := Session.nextNode_proceeds settled shaped
      exact (ensures_of_error (discard_error refused) ensured).2
    | finishNode id =>
      have ensured := Session.finishNode_proceeds settled shaped id
      exact (ensures_of_error refused ensured).2
    | reportSolution solution objective =>
      have ensured := Session.reportSolution_proceeds settled shaped solution objective
      exact (ensures_of_error (discard_error refused) ensured).2
    | _ => exact removes.elim
  | client | rowPool | cutPool | cutRound | separate | applyCuts => exact removes.elim

end Removes

/-! ### Handles of nodes that are gone -/

/-- A run that empties a slot of the tree at a place a number of times. No call empties a slot
twice, as none both creates and removes nodes. -/
inductive Empties (rule : Rule ι) (p : ι) (slot : Nat) (w : World ι) : World ι → Nat → Prop where
  | refl : Empties rule p slot w w 0
  | tail {u v : World ι} {times : Nat} {call : Call ι} (earlier : Empties rule p slot w u times)
      (allowed : rule u call) (step : Step call u v) :
      Empties rule p slot w v
        (times + if (u.trees p).nodes.emptiedAt (v.trees p).nodes slot then 1 else 0)

variable {rule : Rule ι} {p : ι} {w u v x : World ι} {owed : Holdings}

theorem Run.empties (run : Run rule w v) (p : ι) (slot : Nat) :
    ∃ times, Empties rule p slot w v times := by
  induction run with
  | refl => exact ⟨0, .refl⟩
  | tail _ last ih =>
    obtain ⟨call, allowed, step⟩ := last
    obtain ⟨times, emptied⟩ := ih
    exact ⟨_, .tail emptied allowed step⟩

namespace Empties

variable {slot times : Nat}

theorem run (emptied : Empties rule p slot w v times) : Run rule w v := by
  induction emptied with
  | refl => exact .refl
  | tail _ allowed step ih => exact .tail ih ⟨_, allowed, step⟩

/-- A slot that is never emptied stays occupied. -/
theorem occupied (emptied : Empties rule p slot w v times) (never : times = 0)
    (occupied : (w.trees p).nodes.occupiedAt slot = true) :
    (v.trees p).nodes.occupiedAt slot = true := by
  induction emptied with
  | refl => exact occupied
  | @tail u v times call earlier allowed step ih =>
    have before := ih (by omega)
    cases after : (v.trees p).nodes.occupiedAt slot with
    | true => rfl
    | false =>
      simp [SlotTable.emptiedAt, before, after] at never

variable [Fintype ι]

theorem generation (emptied : Empties rule p slot w v times) (kept : w.Kept owed) :
    (v.trees p).nodes.generationAt slot =
      (w.trees p).nodes.generationAt slot + UInt32.ofNat times := by
  induction emptied with
  | refl => simp
  | @tail u v times call earlier allowed step ih =>
    obtain ⟨_, kept', _⟩ := earlier.run.kept kept
    have moves : Moves (call.deeds u p) (u.desk p) (v.desk p) := step.moves kept' p
    have once := moves.generation (call.deeds_oneWay u p) slot
    change (v.trees p).nodes.generationAt slot = (u.trees p).nodes.generationAt slot +
      if (u.trees p).nodes.emptiedAt (v.trees p).nodes slot then 1 else 0 at once
    rw [once, ih, UInt32.add_assoc]
    split
    · rw [UInt32.ofNat_add]
      rfl
    · simp

/-- A handle that names nothing any more names nothing as long as its generation has not
come round. -/
theorem stale {id : NodeId} {gone more : Nat} (kept : w.Kept owed)
    (live : (w.trees p).contains id = true) (first : Empties rule p id.index w v gone)
    (stale : (v.trees p).contains id = false) (second : Empties rule p id.index v x more)
    (few : gone + more < 2 ^ 32) : (x.trees p).contains id = false := by
  obtain ⟨occupied, current⟩ := SlotTable.contains_iff_slot.1 live
  obtain ⟨_, kept', _⟩ := first.run.kept kept
  have before := first.generation kept
  have after := second.generation kept'
  rw [before, UInt32.add_assoc, ← UInt32.ofNat_add, current] at after
  -- the slot was emptied, or the handle would still name its node
  have once : gone ≠ 0 := by
    intro never
    have still : (v.trees p).contains id = true := by
      apply SlotTable.contains_iff_slot.2
      constructor
      · exact first.occupied never occupied
      · rw [before, current, never]
        simp
    rw [still] at stale
    cases stale
  cases again : (x.trees p).contains id with
  | false => rfl
  | true =>
    have same := (SlotTable.contains_iff_slot.1 again).2
    rw [after] at same
    have zero := congrArg UInt32.toNat (UInt32.left_eq_add.1 same.symm)
    rw [UInt32.toNat_ofNat'] at zero
    change (gone + more) % 2 ^ 32 = 0 at zero
    omega

end Empties

/-- The trees of all worlds have their shape, and no handle of a node is used twice. -/
theorem trees_shaped [Fintype ι] (reached : Reachable rule w) (p : ι) :
    (w.trees p).WellFormed ∧ (w.trees p).Walkable ∧ (w.trees p).Removable w.lp ∧
      (∀ call : Call ι, call.Removes → ∀ e, (call.perform w).result = .error e → ¬e.Miscount) ∧
      ∀ id v x gone more, (w.trees p).contains id = true →
        Empties rule p id.index w v gone → (v.trees p).contains id = false →
        Empties rule p id.index v x more → gone + more < 2 ^ 32 →
        (x.trees p).node id = .error id.stale := by
  obtain ⟨_, kept, _⟩ := reached.kept
  have shaped : ((w.trees p).desk w.lp.loadedRows).Shaped := kept.shaped p
  obtain ⟨_, settled, _⟩ := (World.treeAt_frames p).enter kept.settled
  refine ⟨Tree.wellFormed_of_shaped shaped, Tree.walkable_of_shaped shaped,
    Tree.removable_of_shaped settled shaped, ?_, ?_⟩
  · intro call removes e refused
    exact Call.removes_counts removes kept refused
  · intro id v x gone more live first absent second few
    have stale := Empties.stale kept live first absent second few
    unfold Tree.node
    cases found : (x.trees p).nodes.get? id with
    | none => rfl
    | some node =>
      have again : (x.trees p).contains id = true := SlotTable.contains_iff.2 ⟨node, found⟩
      rw [stale] at again
      cases again

theorem trees_shaped_branched :
    ((World.initial.after (rooting ++ branching)).trees ()).WellFormed ∧
      (((World.initial.after (rooting ++ branching)).after
        [.tree () (.freeNode ⟨1, 0⟩)]).trees ()).node ⟨1, 0⟩ = .error (Handle.stale (⟨1, 0⟩ : NodeId)) := by
  have plays : Plays (fun _ _ => True) World.initial (rooting ++ branching) := by
    decide
  have step : Step (.tree () (.freeNode ⟨1, 0⟩)) (World.initial.after (rooting ++ branching))
      ((World.initial.after (rooting ++ branching)).after [.tree () (.freeNode ⟨1, 0⟩)]) :=
    ⟨rfl, trivial, by decide⟩
  have emptied : Empties (fun _ _ => True) () 1 (World.initial.after (rooting ++ branching))
      ((World.initial.after (rooting ++ branching)).after [.tree () (.freeNode ⟨1, 0⟩)]) 1 :=
    .tail .refl trivial step
  obtain ⟨formed, _, _, _, unique⟩ := trees_shaped plays.reachable ()
  exact ⟨formed, unique ⟨1, 0⟩ _ _ 1 0 rfl emptied rfl .refl (by decide)⟩

end BranchCutPrice
