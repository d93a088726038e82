import BranchCutPrice.Proofs.Moves

/-!
The loaded rows are those of the focus. A desk is coherent if that holds and no node has a
row twice; every move but a reload keeps it so.
-/

namespace BranchCutPrice

structure Desk.Coherent (desk : Desk) : Prop where
  focus : ∀ id, desk.focus = some id → Replays desk.nodes id desk.loaded
  distinct : ∀ id rows, Replays desk.nodes id rows → rows.Nodup

namespace Replays

variable {nodes nodes' : SlotTable .node Node} {id : NodeId} {node : Node}

/-- A subroot that holds the rows it had as a fork or leaf changes no list. -/
theorem flatten (found : nodes.get? id = some node) {rows : List RowId}
    (replays : Replays nodes id rows) (children : Nat) {other : NodeId} {rows' : List RowId} :
    Replays (nodes.set id { node with payload := .subroot rows children }) other rows' ↔
      Replays nodes other rows' := by
  have look := SlotTable.get?_set found { node with payload := .subroot rows children }
  have stored : Replays (nodes.set id { node with payload := .subroot rows children }) id rows :=
    .base (by rw [look, if_pos rfl]) (.inr rfl)
  constructor
  · intro after
    induction after with
    | @base other node' found' ends =>
      rw [look] at found'
      by_cases same : other = id
      · rw [if_pos same, Option.some.injEq] at found'
        subst found' same
        exact replays
      · rw [if_neg same] at found'
        exact .base found' ends
    | @under other above node' rows' found' parent delta _ ih =>
      rw [look] at found'
      by_cases same : other = id
      · rw [if_pos same, Option.some.injEq] at found'
        subst found'
        cases delta
      · rw [if_neg same] at found'
        exact .under found' parent delta ih
  · intro before
    induction before with
    | @base other node' found' ends =>
      by_cases same : other = id
      · subst same
        rw [unique (.base found' ends) replays]
        exact stored
      · exact .base (by rw [look, if_neg same, found']) ends
    | @under other above node' rows' found' parent delta replays' ih =>
      by_cases same : other = id
      · subst same
        rw [unique (.under found' parent delta replays') replays]
        exact stored
      · exact .under (by rw [look, if_neg same, found']) parent delta ih

end Replays

namespace Desk

variable {desk : Desk} {id : NodeId} {node : Node}

/-- What is below no other node contributes to no other list. -/
theorem Shaped.replays_beside (shaped : desk.Shaped) (found : desk.nodes.get? id = some node)
    (childless : node.payload.children = 0) {nodes' : SlotTable .node Node}
    (same : ∀ other, other ≠ id → Replays.trace nodes' other = Replays.trace desk.nodes other)
    {other : NodeId} (different : other ≠ id) {rows : List RowId}
    (replays : Replays desk.nodes other rows) : Replays nodes' other rows := by
  refine replays.transfer (· ≠ id) different ?_ fun other _ beside traced =>
    (same other beside).trans traced
  rintro other lower above _ foundLower parent rfl
  have children := shaped.not_childless found foundLower parent
  omega

/-- What a leaf records comes behind the rows that it had. -/
theorem Shaped.replays_record (shaped : desk.Shaped) {basis : BasisId} {added rows : List RowId}
    (found : desk.nodes.get? id = some node) (leaf : node.payload = .leaf basis added)
    (replays : Replays desk.nodes id rows) (row : RowId) :
    Replays (desk.nodes.set id { node with payload := .leaf basis (added ++ [row]) }) id
      (rows ++ [row]) := by
  have look := SlotTable.get?_set found { node with payload := .leaf basis (added ++ [row]) }
  have here := look id
  rw [if_pos rfl] at here
  have childless : node.payload.children = 0 := by
    rw [leaf]
    rfl
  have beside (other : NodeId) (different : other ≠ id) :
      Replays.trace (desk.nodes.set id { node with payload := .leaf basis (added ++ [row]) }) other =
        Replays.trace desk.nodes other := by
    unfold Replays.trace
    rw [look, if_neg different]
  cases replays with
  | base found' ends =>
    rw [found, Option.some.injEq] at found'
    subst found'
    rw [leaf] at ends ⊢
    exact .base here (ends.imp_right fun impossible => by cases impossible)
  | @under _ above _ rows found' parent delta upper =>
    rw [found, Option.some.injEq] at found'
    subst found'
    have notAbove : above ≠ id := by
      rintro rfl
      have children := shaped.not_childless found found parent
      omega
    rw [leaf, List.append_assoc]
    exact .under here parent rfl (shaped.replays_beside found childless beside notAbove upper)

namespace Coherent

/-- Nodes may change in place as long as what they contribute stays. -/
theorem rewrite (coherent : desk.Coherent) {nodes' : SlotTable .node Node}
    (same : ∀ id, Replays.trace nodes' id = Replays.trace desk.nodes id) :
    { desk with nodes := nodes' }.Coherent where
  focus id focus := (Replays.congr same _).2 (coherent.focus id focus)
  distinct id rows replays := coherent.distinct id rows ((Replays.congr same rows).1 replays)

theorem adjust (coherent : desk.Coherent) {loaded : List RowId}
    (loose : desk.focus = none ∨ ∃ id rows, Replays desk.nodes id rows ∧ ¬rows.Nodup) :
    { desk with loaded := loaded }.Coherent := by
  refine ⟨fun id focus => ?_, coherent.distinct⟩
  obtain unfocused | ⟨other, rows, replays, repeated⟩ := loose
  · rw [unfocused] at focus
    cases focus
  · exact absurd (coherent.distinct other rows replays) repeated

/-- A row that is not loaded joins the rows of the focus, a leaf. -/
theorem record (coherent : desk.Coherent) (shaped : desk.Shaped) {basis : BasisId}
    {added : List RowId} {row : RowId} (found : desk.nodes.get? id = some node)
    (leaf : node.payload = .leaf basis added) (focus : desk.focus = some id)
    (fresh : row ∉ desk.loaded) :
    { desk with
      nodes := desk.nodes.set id { node with payload := .leaf basis (added ++ [row]) }
      loaded := desk.loaded ++ [row] }.Coherent := by
  have look := SlotTable.get?_set found { node with payload := .leaf basis (added ++ [row]) }
  have childless : node.payload.children = 0 := by
    rw [leaf]
    rfl
  have beside (other : NodeId) (different : other ≠ id) :
      Replays.trace (desk.nodes.set id { node with payload := .leaf basis (added ++ [row]) }) other =
        Replays.trace desk.nodes other := by
    unfold Replays.trace
    rw [look, if_neg different]
  have replays := coherent.focus id focus
  have here := shaped.replays_record found leaf replays row
  have distinct : (desk.loaded ++ [row]).Nodup := by
    rw [List.nodup_append]
    refine ⟨coherent.distinct id _ replays, List.nodup_singleton row, ?_⟩
    rintro other member _ (_ | ⟨_, ⟨⟩⟩) rfl
    exact fresh member
  refine ⟨fun other focus' => ?_, fun other rows replays' => ?_⟩
  · rw [show desk.focus = some other from focus', Option.some.injEq] at focus
    subst focus
    exact here
  · by_cases same : other = id
    · subst same
      rw [replays'.unique here]
      exact distinct
    · refine coherent.distinct other rows (replays'.transfer (· ≠ id) same ?_ ?_)
      · rintro other lower above different foundLower parent rfl
        rw [show SlotTable.get? _ other = _ from look other, if_neg different] at foundLower
        have children := shaped.not_childless found foundLower parent
        omega
      · intro other contribution different traced
        exact (beside other different).symm.trans traced

/-- A subroot takes over the loaded rows at the focus. -/
theorem flatten (coherent : desk.Coherent) (found : desk.nodes.get? id = some node)
    (focus : desk.focus = some id) (children : Nat) :
    { desk with
      nodes := desk.nodes.set id { node with payload := .subroot desk.loaded children }
    }.Coherent where
  focus other focus' := (Replays.flatten found (coherent.focus id focus) children).2
    (coherent.focus other focus')
  distinct other rows replays := coherent.distinct other rows
    ((Replays.flatten found (coherent.focus id focus) children).1 replays)

theorem load (coherent : desk.Coherent) {rows : List RowId} (replays : Replays desk.nodes id rows) :
    { desk with focus := some id, loaded := rows }.Coherent := by
  refine ⟨fun other focus => ?_, coherent.distinct⟩
  cases focus
  exact replays

/-- A new leaf has the rows of its parent, and no list changes. -/
theorem insert (coherent : desk.Coherent) (framed : desk.Framed) {above : NodeId}
    {upper child : Node} {basis : BasisId} (found : desk.nodes.get? above = some upper)
    (leaf : child.payload = .leaf basis []) (parent : child.parent = some above)
    (fits : (desk.nodes.insert child).2.Fits) :
    { desk with
      nodes := (desk.nodes.insert child).2
      created := desk.created + 1 }.Coherent := by
  have fresh := SlotTable.get?_new framed.sound fits
  have look := SlotTable.get?_insert framed.sound fits
  generalize (desk.nodes.insert child).1 = id at fresh look
  generalize (desk.nodes.insert child).2 = nodes' at look ⊢
  have old {other : NodeId} {node : Node} (there : desk.nodes.get? other = some node) :
      other ≠ id := by
    rintro rfl
    cases fresh.symm.trans there
  have beside (other : NodeId) (different : other ≠ id) :
      Replays.trace nodes' other = Replays.trace desk.nodes other := by
    unfold Replays.trace
    rw [look, if_neg different]
  -- the parent of a node that was there before was there before
  have back (other : NodeId) (different : other ≠ id) {rows : List RowId}
      (replays : Replays nodes' other rows) : Replays desk.nodes other rows := by
    refine replays.transfer (· ≠ id) different ?_ fun other _ different traced =>
      (beside other different).symm.trans traced
    intro other lower above' different foundLower link
    rw [look, if_neg different] at foundLower
    obtain ⟨upper', foundUpper, _⟩ := framed.parent other lower above' foundLower link
    exact old foundUpper
  refine ⟨fun other focus => ?_, fun other rows replays => ?_⟩
  · refine (coherent.focus other focus).transfer (fun _ => True) trivial
      (fun _ _ _ _ _ _ => trivial) fun other _ _ traced => ?_
    obtain ⟨node, there, _⟩ := Option.map_eq_some_iff.1 traced
    exact (beside other (old there)).trans traced
  · by_cases new : other = id
    · subst new
      cases replays with
      | base found' ends =>
        rw [look, if_pos rfl, Option.some.injEq] at found'
        subst found'
        rw [leaf]
        exact List.nodup_nil
      | @under _ above' _ rows found' link delta replays' =>
        rw [look, if_pos rfl, Option.some.injEq] at found'
        subst found'
        rw [parent, Option.some.injEq] at link
        subst link
        rw [leaf]
        simp only [Payload.rows, List.append_nil]
        exact coherent.distinct above rows (back above (old found) replays')
    · exact coherent.distinct other rows (back other new replays)

theorem sprout (coherent : desk.Coherent) (shaped : desk.Shaped) {above : NodeId}
    {upper child : Node} {payload : Payload} {basis : BasisId}
    (found : desk.nodes.get? above = some upper)
    (captured : upper.payload.captureChild above.index = .ok payload)
    (leaf : child.payload = .leaf basis []) (parent : child.parent = some above)
    (fits : ((desk.nodes.set above { upper with payload := payload }).insert child).2.Fits) :
    { desk with
      nodes := ((desk.nodes.set above { upper with payload := payload }).insert child).2
      created := desk.created + 1 }.Coherent := by
  obtain ⟨_, kind, rows, subroot, _, _⟩ := Payload.captureChild_ok captured
  have framed := shaped.framed.set found { upper with payload := payload } rfl rfl
    fun inner => by rw [Node.kind, kind]; exact inner
  have foundAbove := SlotTable.get?_set found { upper with payload := payload } above
  rw [if_pos rfl] at foundAbove
  have lifted : { desk with
      nodes := desk.nodes.set above { upper with payload := payload } }.Coherent :=
    coherent.rewrite (Replays.trace_rewrite found rfl subroot rows)
  exact lifted.insert framed foundAbove leaf parent fits

/-- The root of a tree without nodes has no rows. -/
theorem plant (shaped : desk.Shaped) (bare : desk.root = none) {child : Node} {basis : BasisId}
    (leaf : child.payload = .leaf basis []) (parent : child.parent = none)
    (fits : (desk.nodes.insert child).2.Fits) :
    { desk with
      nodes := (desk.nodes.insert child).2
      root := some (desk.nodes.insert child).1
      created := desk.created + 1 }.Coherent := by
  have stale := shaped.stale_of_bare bare
  have look := SlotTable.get?_insert shaped.sound fits
  have single (other : NodeId) (node : Node)
      (found : (desk.nodes.insert child).2.get? other = some node) : node = child := by
    rw [look, stale] at found
    split at found
    · exact (Option.some.inj found).symm
    · cases found
  refine ⟨fun other focus => ?_, fun other rows replays => ?_⟩
  · obtain ⟨node, found⟩ := shaped.focus other focus
    rw [stale] at found
    cases found
  · cases replays with
    | base found ends =>
      rw [single other _ found, leaf]
      exact List.nodup_nil
    | under found link delta replays' =>
      rw [single other _ found, parent] at link
      cases link

/-- A node that no other is below goes, and no other list changes. -/
theorem fell (coherent : desk.Coherent) (shaped : desk.Shaped)
    (found : desk.nodes.get? id = some node) (childless : node.payload.children = 0)
    {nodes' : SlotTable .node Node} (gone : nodes'.get? id = none)
    (same : ∀ other, other ≠ id → Replays.trace nodes' other = Replays.trace desk.nodes other) :
    (desk.without id nodes').Coherent := by
  refine ⟨fun other focus => ?_, fun other rows replays => ?_⟩
  · simp only [without] at focus
    split at focus
    · cases focus
    · have different : other ≠ id := by
        rintro rfl
        exact absurd focus ‹_›
      exact shaped.replays_beside found childless same different (coherent.focus other focus)
  · refine coherent.distinct other rows (replays.transfer (fun _ => True) trivial
      (fun _ _ _ _ _ _ => trivial) fun other _ _ traced => ?_)
    have different : other ≠ id := by
      rintro rfl
      change Replays.trace nodes' other = _ at traced
      unfold Replays.trace at traced
      rw [gone] at traced
      cases traced
    exact (same other different).symm.trans traced

end Coherent

end Desk

/-- Only a reload can part the loaded rows from the focus. -/
theorem Move.coherent {deed : Deed} {desk desk' : Desk} (move : Move deed desk desk')
    (other : deed ≠ .reload) (shaped : desk.Shaped) (fits : desk'.nodes.Fits)
    (coherent : desk.Coherent) : desk'.Coherent := by
  cases move with
  | reload loaded => exact absurd rfl other
  | adjust loose => exact coherent.adjust loose
  | write found payload parent depth =>
    exact coherent.rewrite (Replays.trace_rewrite found parent
      (congrArg Payload.isSubroot payload) (congrArg Payload.rows payload))
  | record found leaf focus fresh => exact coherent.record shaped found leaf focus fresh
  | @solve _ id node basis added payload found leaf solved =>
    obtain rfl | ⟨focus, rfl⟩ := solved
    · refine coherent.rewrite (Replays.trace_rewrite found rfl ?_ ?_) <;> rw [leaf] <;> rfl
    · exact coherent.flatten found focus 0
  | flatten found fork focus => exact coherent.flatten found focus _
  | load replays => exact coherent.load replays
  | plant bare leaf parent depth => exact .plant shaped bare leaf parent fits
  | sprout found captured leaf parent depth =>
    exact coherent.sprout shaped found captured leaf parent fits
  | @fellRoot _ id node found childless parent =>
    have look := SlotTable.get?_erase desk.nodes id
    refine coherent.fell shaped found childless ?_ fun other different => ?_
    · rw [look, if_pos rfl]
    · unfold Replays.trace
      rw [look, if_neg different]
  | @fell _ id above node upper payload found childless parent foundUpper released =>
    obtain ⟨_, _, rows, subroot, _, _⟩ := Payload.releaseChild_ok released
    have look := SlotTable.get?_erase desk.nodes id
    have same := Replays.trace_rewrite foundUpper
      (show ({ upper with payload := payload } : Node).parent = upper.parent from rfl) subroot rows
    have notGone : id ≠ above := by
      rintro rfl
      rw [look, if_pos rfl] at foundUpper
      cases foundUpper
    refine coherent.fell shaped found childless ?_ fun other different => ?_
    · rw [SlotTable.get?_set foundUpper, if_neg notGone, look, if_pos rfl]
    · rw [same]
      unfold Replays.trace
      rw [look, if_neg different]
  | wipe =>
    refine ⟨fun id focus => ?_, fun id rows replays => ?_⟩
    · cases focus
    · obtain ⟨node, found⟩ := replays.live
      rw [show SlotTable.get? _ id = none from
        SlotTable.get?_eraseAll_handles shaped.fits id] at found
      cases found

theorem Moves.coherent {may : Set Deed} {desk desk' : Desk} (moves : Moves may desk desk')
    (still : .reload ∉ may) (shaped : desk.Shaped) (fits : desk'.nodes.Fits)
    (coherent : desk.Coherent) : desk'.Coherent := by
  induction moves with
  | refl => exact coherent
  | tail earlier last ih =>
    obtain ⟨deed, allowed, move⟩ := last
    have fitsEarlier := Nat.le_trans move.slots_le fits
    have shapedEarlier := Moves.shaped earlier shaped fitsEarlier
    have different : deed ≠ .reload := by
      rintro rfl
      exact still allowed
    exact move.coherent different shapedEarlier fits (ih fitsEarlier)

end BranchCutPrice
