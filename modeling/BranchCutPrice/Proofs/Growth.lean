import BranchCutPrice.Proofs.Content
import BranchCutPrice.Tree.Growth

/-!
Creating leaves. A new leaf holds its warm start and nothing else; a refused creation
leaves the state as it was.
-/

namespace BranchCutPrice.Tree

open BranchCutPrice.Action Relaxation

/-- The nodes of a tree once the parent of a new node counts it, and the depth of the new
node. -/
inductive Counted (nodes : SlotTable .node Node) :
    Option NodeId → SlotTable .node Node → Nat → Prop where
  | top : Counted nodes none nodes 0
  | under {above : NodeId} {upper : Node} {payload : Payload}
      (found : nodes.get? above = some upper)
      (captured : upper.payload.captureChild above.index = .ok payload) :
      Counted nodes (some above) (nodes.set above { upper with payload := payload })
        (upper.depth + 1)

variable {nodes counted : SlotTable .node Node} {parent : Option NodeId} {depth : Nat}

theorem Counted.sound (ready : Counted nodes parent counted depth) (sound : nodes.Sound) :
    counted.Sound := by
  cases ready with
  | top => exact sound
  | under => exact sound.set _ _

theorem Counted.holdings (ready : Counted nodes parent counted depth) :
    nodeHoldings counted = nodeHoldings nodes := by
  cases ready with
  | top => rfl
  | under found captured =>
    obtain ⟨_, _, rows, _, _, basis⟩ := Payload.captureChild_ok captured
    exact nodeHoldings_rewrite found (Payload.holdings_congr rows basis)

/-- What creating a node below `parent` comes to. -/
structure Born (s s' : Linked Tree) (parent : Option NodeId) (basis : BasisId) (id : NodeId)
    (counted : SlotTable .node Node) (child : Node) : Prop where
  ready : Counted s.own.nodes parent counted child.depth
  payload : child.payload = .leaf basis []
  parent : child.parent = parent
  id : id = (counted.insert child).1
  desk : s'.desk = { s.desk with
    nodes := (counted.insert child).2
    created := s.desk.created + 1 }

theorem Born.table {s s' : Linked Tree} {basis : BasisId} {id : NodeId} {child : Node}
    (born : Born s s' parent basis id counted child) : s'.own.nodes = (counted.insert child).2 :=
  congrArg Desk.nodes born.desk

theorem captureChild_ensures {tree : Tree} {above : NodeId} {upper : Node} {payload : Payload}
    (found : tree.nodes.get? above = some upper)
    (captured : upper.payload.captureChild above.index = .ok payload) :
    (captureChild above).Ensures tree
      (fun _ tree' => tree' = tree.setPayload above upper payload) (fun _ _ => False) := by
  apply ensures_change.2
  constructor
  · intro tree' changed
    simp only [node_ok.2 found, captured, bind, Except.bind, pure, Except.pure] at changed
    cases changed
    rfl
  · intro e refused
    simp only [node_ok.2 found, captured, bind, Except.bind, pure, Except.pure] at refused
    cases refused

/-- A node that can pass something on can count a child. -/
theorem counted_of_heritage {tree : Tree} {bound : Float}
    (inherits : tree.heritage parent = .ok (bound, depth)) (lp : Relaxation) :
    ∃ counted, Counted tree.nodes parent counted depth ∧
      (parent.toList.forM fun above => onOwn (captureChild above)).Ensures (Linked.mk tree lp)
        (fun _ s' => s' = ⟨{ tree with nodes := counted }, lp⟩) (fun _ _ => False) := by
  cases parent with
  | none =>
    cases inherits
    exact ⟨tree.nodes, .top, rfl⟩
  | some above =>
    unfold heritage at inherits
    cases found : tree.node above with
    | error e => simp [found, bind, Except.bind] at inherits
    | ok upper =>
      simp only [found, bind, Except.bind, pure, Except.pure] at inherits
      split at inherits
      · cases inherits
      · rename_i inner
        cases inherits
        have found := node_ok.1 found
        obtain ⟨payload, captured⟩ : ∃ payload,
            upper.payload.captureChild above.index = .ok payload := by
          unfold Node.kind at inner
          cases payload : upper.payload with
          | leaf basis added =>
            rw [payload] at inner
            exact absurd rfl inner
          | fork added children => exact ⟨_, rfl⟩
          | subroot rows children => exact ⟨_, rfl⟩
        refine ⟨_, .under found captured, ?_⟩
        change (onOwn (captureChild above) >>= fun _ => pure ()).Ensures _ _ _
        rw [ensures_bind, ensures_onOwn]
        apply (captureChild_ensures found captured).imp
        · intro _ tree' same
          rw [same]
          rfl
        · intro _ _ no
          exact no

variable {s : Linked Tree} {owed : Holdings}

theorem createNode_ensures (settled : Settled s owed) (sound : s.own.nodes.Sound)
    (parent : Option NodeId) (basis : BasisId) :
    (createNode parent basis).Ensures s
      (fun id s' => Settled s' owed ∧ ∃ counted child, Born s s' parent basis id counted child)
      (fun e s' => s' = s ∧
        (s.own.heritage parent = .error e ∨ s.lp.bases.contains basis = false)) := by
  unfold createNode
  rw [ensures_bind]
  apply ensures_read.2
  constructor
  · intro ⟨bound, depth⟩ inherits
    dsimp only
    rw [ensures_bind, ensures_onLp]
    apply (captureBasis_ensures settled basis).imp
    · intro _ lp' captured
      obtain ⟨counted, ready, counts⟩ := counted_of_heritage inherits lp'
      rw [ensures_bind]
      apply counts.imp
      · intro _ s' same
        rw [same, ensures_bind, ensures_onOwn]
        unfold allocate
        rw [ensures_modifyGet, ensures_bind, ensures_emit]
        dsimp only
        constructor
        · have taken : Settled (Linked.mk s.own lp') (owed + .ofBases {basis}) := by
            unfold Settled
            rw [add_right_comm]
            exact captured.1
          apply taken.take
          change nodeHoldings (counted.insert _).2 = _
          rw [nodeHoldings_insert (ready.sound sound), ready.holdings]
          rfl
        · refine ⟨counted, _, ready, rfl, rfl, rfl, ?_⟩
          exact congrArg (Desk.mk _ s.own.root s.own.focus (s.own.stats.created + 1)
            s.own.stats.freed) captured.2.loadedRows
      · intro _ _ no
        exact no.elim
    · intro _ lp' refused
      exact ⟨congrArg (Linked.mk s.own) refused.1, .inr refused.2⟩
  · intro e refused
    exact ⟨rfl, .inl refused⟩

/-- The moves that created a leaf. -/
theorem Born.moves {s s' : Linked Tree} {above : NodeId} {basis : BasisId} {id : NodeId}
    {child : Node} (born : Born s s' (some above) basis id counted child) :
    Moves {.sprout} s.desk s'.desk := by
  obtain ⟨ready, payload, parent, _, desk⟩ := born
  generalize sought : child.depth = depth at ready
  cases ready with
  | under found captured =>
    rw [desk]
    exact .one (.sprout (show s.desk.nodes.get? above = _ from found) captured payload parent
      sought) (Set.mem_singleton _)

theorem createLeaf_ensures (settled : Settled s owed) (sound : s.own.nodes.Sound)
    (above : NodeId) (basis : BasisId) :
    (createLeaf above basis).Ensures s
      (fun id s' => (Settled s' owed ∧ Moves {.sprout} s.desk s'.desk) ∧
        ∃ counted child, Born s s' (some above) basis id counted child)
      (fun _ s' => s' = s) := by
  apply (createNode_ensures settled sound (some above) basis).imp
  · intro id s' created
    obtain ⟨settled', counted, child, born⟩ := created
    exact ⟨⟨settled', born.moves⟩, counted, child, born⟩
  · intro _ _ refused
    exact refused.1

/-- The new leaf has the rows of the node above it. -/
theorem Born.replays {s s' : Linked Tree} {above : NodeId} {basis : BasisId} {id : NodeId}
    {child : Node} (born : Born s s' (some above) basis id counted child)
    (sound : s.own.nodes.Sound) (fits : s'.own.nodes.Fits) {rows : List RowId}
    (replays : Replays s.own.nodes above rows) : Replays s'.own.nodes id rows := by
  rw [born.table] at fits ⊢
  have look := SlotTable.get?_insert (born.ready.sound sound) fits
  have fresh := SlotTable.get?_new (born.ready.sound sound) fits
  have counts : Replays counted above rows := by
    have ready := born.ready
    generalize child.depth = depth at ready
    cases ready with
    | @under _ upper payload found captured =>
      obtain ⟨_, _, same, subroot, _, _⟩ := Payload.captureChild_ok captured
      have traces := Replays.trace_rewrite found
        (show ({ upper with payload := payload } : Node).parent = upper.parent from rfl)
        subroot same
      exact (Replays.congr traces rows).2 replays
  have above' : Replays (counted.insert child).2 above rows := by
    refine counts.transfer (fun _ => True) trivial (fun _ _ _ _ _ _ => trivial) ?_
    intro other contribution _ traced
    unfold Replays.trace at traced ⊢
    rw [look]
    by_cases new : other = (counted.insert child).1
    · rw [new, fresh] at traced
      cases traced
    · rw [if_neg new]
      exact traced
  have found : (counted.insert child).2.get? id = some child := by
    rw [look, if_pos born.id]
  have under := Replays.under found born.parent (by rw [born.payload]; rfl) above'
  rw [born.payload] at under
  exact List.append_nil rows ▸ under

theorem createRoot_ensures (settled : Settled s owed) (sound : s.own.nodes.Sound)
    (basis : BasisId) :
    (createRoot basis).Ensures s
      (fun id s' => (Settled s' owed ∧ Moves {.sprout} s.desk s'.desk) ∧ s.own.root = none ∧
        ∃ child, id = (s.own.nodes.insert child).1 ∧ s'.own.nodes = (s.own.nodes.insert child).2 ∧
          child.payload = .leaf basis [] ∧ child.parent = none)
      (fun _ s' => s' = s ∧
        (s.own.root ≠ none ∨ s.lp.bases.contains basis = false)) := by
  unfold createRoot
  rw [ensures_bind, ensures_get]
  split
  · rename_i rooted
    refine ⟨rfl, .inl ?_⟩
    intro bare
    rw [bare] at rooted
    cases rooted
  · rename_i rootless
    have bare : s.own.root = none := by
      simpa using rootless
    change (createNode none basis >>= _).Ensures s _ _
    rw [ensures_bind]
    apply (createNode_ensures settled sound none basis).imp
    · intro id s' created
      obtain ⟨settled', counted, child, born⟩ := created
      rw [ensures_bind, ensures_onOwn, ensures_modify]
      obtain ⟨ready, payload, parent, name, desk⟩ := born
      generalize sought : child.depth = depth at ready
      cases ready with
      | top =>
        refine ⟨⟨settled'.congr rfl, ?_⟩, bare, child, name, congrArg Desk.nodes desk, payload,
          parent⟩
        have planted := Move.plant (show s.desk.root = none from bare) payload parent sought
        change Moves {.sprout} s.desk { s'.desk with root := some id }
        rw [desk, name]
        exact .one planted (Set.mem_singleton _)
    · intro e _ refused
      refine ⟨refused.1, refused.2.imp_left fun inherits => ?_⟩
      cases inherits

theorem createRoot_rooted {s : Linked Tree} (rooted : s.own.root.isSome = true)
    (basis : BasisId) : (createRoot basis).Ensures s (fun _ _ => False)
      fun e s' => e = .invalid .rootExists ∧ s' = s := by
  unfold createRoot
  rw [ensures_bind, ensures_get]
  split
  · exact ⟨rfl, rfl⟩
  · rename_i bare
    exact absurd rooted bare

end BranchCutPrice.Tree
