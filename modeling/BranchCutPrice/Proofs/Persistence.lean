import BranchCutPrice.Proofs.Coherence

/-!
The rows of a solved node last. Once a node is a fork or a subroot, so are all nodes above
it, and no move but a separate flattening changes what any of them contributes. So the
node has the same rows for as long as it is there.
-/

namespace BranchCutPrice

/-- A fork or subroot with these rows. -/
structure Desk.Solved (desk : Desk) (id : NodeId) (rows : List RowId) : Prop where
  inner : ∃ node, desk.nodes.get? id = some node ∧ node.kind ≠ .leaf
  replays : Replays desk.nodes id rows

namespace Desk.Solved

variable {desk : Desk} {id : NodeId} {rows : List RowId}

theorem ne_leaf (solved : desk.Solved id rows) {leaf : NodeId} {node : Node}
    (found : desk.nodes.get? leaf = some node) (kind : node.kind = .leaf) : id ≠ leaf := by
  intro same
  obtain ⟨inner, foundInner, notLeaf⟩ := solved.inner
  rw [same, found, Option.some.injEq] at foundInner
  subst foundInner
  exact notLeaf kind

/-- Leaves contribute nothing to the rows of a solved node. -/
theorem beside_leaf (solved : desk.Solved id rows) (shaped : desk.Shaped) {leaf : NodeId}
    {node : Node} (found : desk.nodes.get? leaf = some node) (kind : node.kind = .leaf)
    (node' : Node) (loaded : List RowId) :
    { desk with nodes := desk.nodes.set leaf node', loaded := loaded }.Solved id rows := by
  have look := SlotTable.get?_set found node'
  obtain ⟨inner, foundInner, notLeaf⟩ := solved.inner
  refine ⟨⟨inner, ?_, notLeaf⟩, solved.replays.transfer (· ≠ leaf) ?_ ?_ ?_⟩
  · change (desk.nodes.set leaf node').get? id = some inner
    rw [look, if_neg (solved.ne_leaf found kind), foundInner]
  · exact solved.ne_leaf found kind
  · intro other lower above _ foundLower parent same
    obtain ⟨upper, foundUpper, innerUpper, _⟩ := shaped.parent other lower above foundLower parent
    rw [same, found, Option.some.injEq] at foundUpper
    subst foundUpper
    exact innerUpper kind
  · intro other contribution different traced
    unfold Replays.trace at traced ⊢
    rw [look, if_neg different]
    exact traced

/-- Nodes may change in place as long as what they contribute stays. -/
theorem rewrite (solved : desk.Solved id rows) {other : NodeId} {node node' : Node}
    (found : desk.nodes.get? other = some node) (parent : node'.parent = node.parent)
    (subroot : node'.payload.isSubroot = node.payload.isSubroot)
    (same : node'.payload.rows = node.payload.rows) (kind : node'.kind = node.kind) :
    { desk with nodes := desk.nodes.set other node' }.Solved id rows := by
  have look := SlotTable.get?_set found node'
  have traces := Replays.trace_rewrite found parent subroot same
  refine ⟨?_, (Replays.congr traces rows).2 solved.replays⟩
  obtain ⟨inner, foundInner, notLeaf⟩ := solved.inner
  by_cases here : id = other
  · refine ⟨node', ?_, ?_⟩
    · change (desk.nodes.set other node').get? id = some node'
      rw [look, if_pos here]
    · rw [here, found, Option.some.injEq] at foundInner
      rw [kind, foundInner]
      exact notLeaf
  · refine ⟨inner, ?_, notLeaf⟩
    change (desk.nodes.set other node').get? id = some inner
    rw [look, if_neg here, foundInner]

/-- A new node contributes to no list that was there. -/
theorem grow (solved : desk.Solved id rows) {desk' : Desk}
    (kept : ∀ other node, desk.nodes.get? other = some node →
      desk'.nodes.get? other = some node) : desk'.Solved id rows := by
  obtain ⟨inner, foundInner, notLeaf⟩ := solved.inner
  refine ⟨⟨inner, kept id inner foundInner, notLeaf⟩, ?_⟩
  refine solved.replays.transfer (fun _ => True) trivial (fun _ _ _ _ _ _ => trivial) ?_
  intro other contribution _ traced
  obtain ⟨node, found, contributes⟩ := Option.map_eq_some_iff.1 traced
  unfold Replays.trace
  rw [kept other node found, Option.map_some, contributes]

/-- A node below which there is no other goes. -/
theorem without (solved : desk.Solved id rows) (shaped : desk.Shaped) {gone : NodeId}
    {node : Node} (found : desk.nodes.get? gone = some node)
    (childless : node.payload.children = 0) (different : id ≠ gone) :
    (desk.without gone (desk.nodes.erase gone)).Solved id rows := by
  have look := SlotTable.get?_erase desk.nodes gone
  obtain ⟨inner, foundInner, notLeaf⟩ := solved.inner
  refine ⟨⟨inner, ?_, notLeaf⟩, ?_⟩
  · change (desk.nodes.erase gone).get? id = some inner
    rw [look, if_neg different, foundInner]
  · refine shaped.replays_beside found childless ?_ different solved.replays
    intro other beside
    unfold Replays.trace
    rw [Desk.nodes_without, look, if_neg beside]

end Desk.Solved

/-- What is inserted takes no other place. -/
private theorem kept_insert {nodes : SlotTable .node Node} (sound : nodes.Sound) {child : Node}
    (fits : (nodes.insert child).2.Fits) (other : NodeId) (node : Node)
    (found : nodes.get? other = some node) : (nodes.insert child).2.get? other = some node := by
  have fresh := SlotTable.get?_new sound fits
  rw [SlotTable.get?_insert sound fits]
  by_cases new : other = (nodes.insert child).1
  · rw [← new, found] at fresh
    cases fresh
  · rw [if_neg new, found]

theorem Move.solved {deed : Deed} {desk desk' : Desk} (move : Move deed desk desk')
    (apart : deed ≠ .flatten) (shaped : desk.Shaped) (fits : desk'.nodes.Fits) {id : NodeId}
    {rows : List RowId} (solved : desk.Solved id rows) (live : desk'.nodes.contains id = true) :
    desk'.Solved id rows := by
  obtain ⟨node', live⟩ := SlotTable.contains_iff.1 live
  cases move with
  | reload | adjust | load => exact ⟨solved.inner, solved.replays⟩
  | write found payload parent depth =>
    refine solved.rewrite found parent (congrArg Payload.isSubroot payload)
      (congrArg Payload.rows payload) ?_
    rw [Node.kind, payload]
    rfl
  | record found leaf focus fresh =>
    exact solved.beside_leaf shaped found (congrArg Payload.kind leaf) _ _
  | solve found leaf =>
    exact solved.beside_leaf shaped found (congrArg Payload.kind leaf) _ _
  | flatten => exact absurd rfl apart
  | plant bare leaf parent depth =>
    exact solved.grow (kept_insert shaped.sound fits)
  | @sprout _ above upper child payload basis found captured leaf parent depth =>
    obtain ⟨_, kind, contributed, subroot, _, _⟩ := Payload.captureChild_ok captured
    have counted : { desk with
        nodes := desk.nodes.set above { upper with payload := payload } }.Solved id rows :=
      solved.rewrite found rfl subroot contributed kind
    exact counted.grow (kept_insert (shaped.sound.set _ _) fits)
  | @fellRoot _ gone node found childless parent =>
    have different : id ≠ gone := by
      intro same
      rw [Desk.nodes_without, SlotTable.get?_erase, if_pos same] at live
      cases live
    exact solved.without shaped found childless different
  | @fell _ gone above node upper payload found childless parent foundUpper released =>
    obtain ⟨_, kind, contributed, subroot, _, _⟩ := Payload.releaseChild_ok released
    have erased := SlotTable.get?_erase desk.nodes gone
    have set := SlotTable.get?_set foundUpper { upper with payload := payload }
    have different : id ≠ gone := by
      intro same
      rw [Desk.nodes_without, same, set] at live
      by_cases upwards : gone = above
      · rw [← upwards, erased, if_pos rfl] at foundUpper
        cases foundUpper
      · rw [if_neg upwards, erased, if_pos rfl] at live
        cases live
    have left := solved.without shaped found childless different
    exact left.rewrite foundUpper rfl subroot contributed kind
  | wipe =>
    rw [show SlotTable.get? _ id = none from
      SlotTable.get?_eraseAll_handles shaped.fits id] at live
    cases live

/-- A move that removes no node keeps every node. -/
theorem Move.live_forth {deed : Deed} {desk desk' : Desk} (move : Move deed desk desk')
    (growing : deed ≠ .fell) (shaped : desk.Shaped) (fits : desk'.nodes.Fits) {id : NodeId}
    (live : desk.nodes.contains id = true) : desk'.nodes.contains id = true := by
  have set {other : NodeId} {node node' : Node} (found : desk.nodes.get? other = some node) :
      (desk.nodes.set other node').contains id = true := by
    obtain ⟨here, foundHere⟩ := SlotTable.contains_iff.1 live
    apply SlotTable.contains_iff.2
    rw [SlotTable.get?_set found]
    by_cases same : id = other
    · exact ⟨node', if_pos same⟩
    · exact ⟨here, by rw [if_neg same, foundHere]⟩
  cases move with
  | reload | adjust | load => exact live
  | write found => exact set found
  | record found => exact set found
  | solve found => exact set found
  | flatten found => exact set found
  | plant =>
    obtain ⟨here, foundHere⟩ := SlotTable.contains_iff.1 live
    exact SlotTable.contains_iff.2 ⟨here, kept_insert shaped.sound fits id here foundHere⟩
  | sprout found =>
    obtain ⟨here, foundHere⟩ := SlotTable.contains_iff.1 (set found)
    exact SlotTable.contains_iff.2
      ⟨here, kept_insert (shaped.sound.set _ _) fits id here foundHere⟩
  | fellRoot | fell | wipe => exact absurd rfl growing

/-- A move that adds no node only leaves nodes that were there. -/
theorem Move.live_back {deed : Deed} {desk desk' : Desk} (move : Move deed desk desk')
    (shrinking : deed ≠ .sprout) {id : NodeId} (live : desk'.nodes.contains id = true) :
    desk.nodes.contains id = true := by
  have set {nodes : SlotTable .node Node} {other : NodeId} {node node' : Node}
      (found : nodes.get? other = some node)
      (live : (nodes.set other node').contains id = true) : nodes.contains id = true := by
    obtain ⟨here, foundHere⟩ := SlotTable.contains_iff.1 live
    apply SlotTable.contains_iff.2
    rw [SlotTable.get?_set found] at foundHere
    by_cases same : id = other
    · exact ⟨node, by rw [same, found]⟩
    · rw [if_neg same] at foundHere
      exact ⟨here, foundHere⟩
  have erase {other : NodeId} (live : (desk.nodes.erase other).contains id = true) :
      desk.nodes.contains id = true := by
    obtain ⟨here, foundHere⟩ := SlotTable.contains_iff.1 live
    apply SlotTable.contains_iff.2
    rw [SlotTable.get?_erase] at foundHere
    split at foundHere
    · cases foundHere
    · exact ⟨here, foundHere⟩
  cases move with
  | reload | adjust | load => exact live
  | write found => exact set found live
  | record found => exact set found live
  | solve found => exact set found live
  | flatten found => exact set found live
  | plant | sprout => exact absurd rfl shrinking
  | fellRoot => exact erase live
  | fell found childless parent foundUpper => exact erase (set foundUpper live)
  | wipe =>
    obtain ⟨here, foundHere⟩ := SlotTable.contains_iff.1 live
    apply SlotTable.contains_iff.2
    rw [show SlotTable.get? _ id = _ from SlotTable.get?_eraseAll _ _ id] at foundHere
    split at foundHere
    · cases foundHere
    · exact ⟨here, foundHere⟩

namespace Moves

variable {may : Set Deed} {desk desk' : Desk}

theorem live_forth (moves : Moves may desk desk') (growing : .fell ∉ may) (shaped : desk.Shaped)
    (fits : desk'.nodes.Fits) {id : NodeId} (live : desk.nodes.contains id = true) :
    desk'.nodes.contains id = true := by
  induction moves with
  | refl => exact live
  | tail earlier last ih =>
    obtain ⟨deed, allowed, move⟩ := last
    have fitsEarlier := Nat.le_trans move.slots_le fits
    have different : deed ≠ .fell := fun same => growing (same ▸ allowed)
    exact move.live_forth different (Moves.shaped earlier shaped fitsEarlier) fits (ih fitsEarlier)

/-- A solved node that is there at the end of a growth or a shrinkage has its rows. -/
theorem solved (moves : Moves may desk desk') (apart : .flatten ∉ may)
    (oneWay : .fell ∉ may ∨ .sprout ∉ may) (shaped : desk.Shaped) (fits : desk'.nodes.Fits)
    {id : NodeId} {rows : List RowId} (solved : desk.Solved id rows)
    (live : desk'.nodes.contains id = true) : desk'.Solved id rows := by
  induction moves with
  | refl => exact solved
  | @tail middle last earlier move ih =>
    obtain ⟨deed, allowed, move⟩ := move
    have fitsEarlier := Nat.le_trans move.slots_le fits
    have shapedEarlier := Moves.shaped earlier shaped fitsEarlier
    have different : deed ≠ .flatten := fun same => apart (same ▸ allowed)
    have liveEarlier : middle.nodes.contains id = true := by
      obtain growing | shrinking := oneWay
      · obtain ⟨node, found, _⟩ := solved.inner
        exact Moves.live_forth earlier growing shaped fitsEarlier
          (SlotTable.contains_iff.2 ⟨node, found⟩)
      · exact move.live_back (fun same => shrinking (same ▸ allowed)) live
    exact move.solved different shapedEarlier fits (ih fitsEarlier liveEarlier) live

end Moves

end BranchCutPrice
