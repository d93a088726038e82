import BranchCutPrice.Proofs.Moves

/-!
What the relaxation of a node is rebuilt from: the rows of the nearest subroot, or none at the
root, and what every node on the way down from there adds. That way only gets shorter while
the tree changes, so the nodes above a solved node never need more than when they were solved.
-/

namespace BranchCutPrice

variable {nodes nodes' middle : SlotTable .node Node} {id : NodeId} {node : Node}
  {base base' : List RowId} {deltas deltas' : List (List RowId)}

/-- The complete list that the rows of a node start from, and what is added node by node. -/
inductive Rebuilds (nodes : SlotTable .node Node) :
    NodeId → List RowId → List (List RowId) → Prop where
  | stored {id : NodeId} {node : Node} {rows : List RowId} {children : Nat}
      (found : nodes.get? id = some node) (subroot : node.payload = .subroot rows children) :
      Rebuilds nodes id rows []
  | top {id : NodeId} {node : Node} (found : nodes.get? id = some node)
      (parent : node.parent = none) (delta : node.payload.isSubroot = false) :
      Rebuilds nodes id [] [node.payload.added]
  | under {id above : NodeId} {node : Node} {base : List RowId} {deltas : List (List RowId)}
      (found : nodes.get? id = some node) (parent : node.parent = some above)
      (delta : node.payload.isSubroot = false) (rebuilds : Rebuilds nodes above base deltas) :
      Rebuilds nodes id base (deltas ++ [node.payload.added])

namespace Payload

variable {payload : Payload}

theorem of_isSubroot (subroot : payload.isSubroot = true) :
    ∃ children, payload = .subroot payload.rows children := by
  cases payload with
  | leaf | fork => cases subroot
  | subroot rows children => exact ⟨children, rfl⟩

theorem rows_of_delta (delta : payload.isSubroot = false) : payload.rows = payload.added := by
  cases payload with
  | leaf | fork => rfl
  | subroot => cases delta

end Payload

/-! ### Rows and chains -/

/-- A walk to the nearest subroot passes the nodes that add to its rows, the last one first. -/
theorem Rebuilds.of_climbs {path : List (NodeId × Node)}
    (climbs : Climbs nodes (·.payload.isSubroot) id path) :
    ∃ base deltas, Rebuilds nodes id base deltas ∧
      (path.map Prod.snd).reverse.flatMap (·.payload.rows) = base ++ deltas.flatten ∧
      ((path.map Prod.snd).filter (!·.payload.isSubroot)).map (·.payload.added) =
        deltas.reverse := by
  induction climbs with
  | @last id node found ends =>
    cases subroot : node.payload.isSubroot with
    | true =>
      obtain ⟨children, stored⟩ := Payload.of_isSubroot subroot
      exact ⟨_, [], .stored found stored, by simp, by simp [subroot]⟩
    | false =>
      have parent : node.parent = none := ends.resolve_right (by rw [subroot]; decide)
      refine ⟨[], _, .top found parent subroot, ?_, by simp [subroot]⟩
      simp [Payload.rows_of_delta subroot]
  | @step id above node path found parent goes climbs ih =>
    obtain ⟨base, deltas, rebuilds, rows, added⟩ := ih
    refine ⟨base, _, .under found parent goes rebuilds, ?_, ?_⟩
    · rw [List.map_cons, List.reverse_cons, List.flatMap_append, rows]
      simp [Payload.rows_of_delta goes]
    · rw [List.map_cons, List.filter_cons_of_pos (by simp [goes]), List.map_cons, added,
        List.reverse_append, List.reverse_singleton, List.singleton_append]

theorem Desk.Shaped.rebuilds {desk : Desk} (shaped : desk.Shaped)
    (found : desk.nodes.get? id = some node) :
    ∃ base deltas, Rebuilds desk.nodes id base deltas := by
  obtain ⟨path, climbs, _⟩ := shaped.climbs (·.payload.isSubroot) found
  obtain ⟨base, deltas, rebuilds, _⟩ := Rebuilds.of_climbs climbs
  exact ⟨base, deltas, rebuilds⟩

theorem Tree.rebuilds_live {tree : Tree} {loaded : List RowId}
    (shaped : (tree.desk loaded).Shaped) (found : tree.nodes.get? id = some node) :
    ∃ base deltas, Rebuilds tree.nodes id base deltas ∧
      tree.lpRows id = .ok (base ++ deltas.flatten) ∧
      tree.deltaChain id = .ok (deltas.length, deltas.flatten.length) := by
  obtain ⟨path, walked, climbs⟩ := ascend_live shaped (·.payload.isSubroot) found
  obtain ⟨base, deltas, rebuilds, rows, added⟩ := Rebuilds.of_climbs climbs
  have listed : tree.lineage id = .ok (path.map Prod.snd) := by
    unfold lineage
    rw [walked]
    rfl
  refine ⟨base, deltas, rebuilds, ?_, ?_⟩
  · unfold lpRows
    rw [listed, ← rows]
    rfl
  · have count := congrArg List.length added
    have total := congrArg (fun lists => (List.flatten lists).length) added
    rw [List.length_map, List.length_reverse] at count
    simp only [← List.flatMap_def, List.length_flatten, List.map_reverse, List.sum_reverse]
      at total
    unfold deltaChain
    rw [listed, ← count, List.length_flatten, ← total]
    rfl

/-! ### Growing up -/

/-- What becomes of nodes. Those that stay keep their parents, no subroot turns back, and only
those in `solved` stop being leaves. -/
structure Matures (solved : Set NodeId) (nodes nodes' : SlotTable .node Node) : Prop where
  stays : ∀ id node node', nodes.get? id = some node → nodes'.get? id = some node' →
    node'.parent = node.parent ∧
      (node.payload.isSubroot = true → node'.payload.isSubroot = true)
  inner : ∀ id node', nodes'.get? id = some node' → node'.kind ≠ .leaf →
    id ∈ solved ∨ ∃ node, nodes.get? id = some node ∧ node.kind ≠ .leaf

namespace Matures

variable {solved : Set NodeId}

theorem rfl : Matures solved nodes nodes where
  stays id node node' found found' := by
    rw [found, Option.some.injEq] at found'
    rw [found']
    exact ⟨Eq.refl _, fun subroot => subroot⟩
  inner id node found inner := .inr ⟨node, found, inner⟩

/-- Nodes may be left out. -/
theorem part (matures : Matures solved nodes middle)
    (part : ∀ id node, nodes'.get? id = some node → middle.get? id = some node) :
    Matures solved nodes nodes' where
  stays id node node' found found' := matures.stays id node node' found (part id node' found')
  inner id node' found' inner := matures.inner id node' (part id node' found') inner

theorem erase (matures : Matures solved nodes middle) (id : NodeId) :
    Matures solved nodes (middle.erase id) := by
  apply matures.part
  intro other node found
  rw [SlotTable.get?_erase] at found
  split at found
  · cases found
  · exact found

theorem set (matures : Matures solved nodes middle) (found : middle.get? id = some node)
    {node' : Node} (parent : node'.parent = node.parent)
    (subroot : node.payload.isSubroot = true → node'.payload.isSubroot = true)
    (inner : node'.kind ≠ .leaf → id ∈ solved ∨ node.kind ≠ .leaf) :
    Matures solved nodes (middle.set id node') where
  stays other old new there here := by
    rw [SlotTable.get?_set found] at here
    split at here
    · rename_i same
      cases here
      subst same
      obtain ⟨link, kept⟩ := matures.stays other old node there found
      exact ⟨parent.trans link, fun was => subroot (kept was)⟩
    · exact matures.stays other old new there here
  inner other new here grown := by
    rw [SlotTable.get?_set found] at here
    split at here
    · rename_i same
      cases here
      subst same
      obtain allowed | before := inner grown
      · exact .inl allowed
      · exact matures.inner other node found before
    · exact matures.inner other new here grown

/-- Leaves may be added, at handles that name nothing. -/
theorem insert (matures : Matures solved nodes middle) (sound : middle.Sound) {child : Node}
    (fits : (middle.insert child).2.Fits) (fresh : nodes.get? (middle.insert child).1 = none)
    (leaf : child.kind = .leaf) : Matures solved nodes (middle.insert child).2 where
  stays other old new there here := by
    rw [SlotTable.get?_insert sound fits] at here
    split at here
    · rename_i same
      rw [same, fresh] at there
      cases there
    · exact matures.stays other old new there here
  inner other new here grown := by
    rw [SlotTable.get?_insert sound fits] at here
    split at here
    · cases here
      exact absurd leaf grown
    · exact matures.inner other new here grown

end Matures

/-- The deltas of a node that stays do not become more. -/
theorem Rebuilds.length_le {solved : Set NodeId} (before : Rebuilds nodes id base deltas)
    (matures : Matures solved nodes nodes') (after : Rebuilds nodes' id base' deltas') :
    deltas'.length ≤ deltas.length := by
  induction after generalizing base deltas with
  | stored => exact Nat.zero_le _
  | @top id node' found' parent' delta' =>
    cases before with
    | stored found subroot =>
      have still := (matures.stays id _ node' found found').2 (by rw [subroot]; rfl)
      rw [delta'] at still
      cases still
    | top | under => simp
  | @under id above' node' _ _ found' parent' delta' _ ih =>
    cases before with
    | stored found subroot =>
      have still := (matures.stays id _ node' found found').2 (by rw [subroot]; rfl)
      rw [delta'] at still
      cases still
    | top found parent =>
      have link := (matures.stays id _ node' found found').1
      rw [parent, parent'] at link
      cases link
    | under found parent _ rebuilds =>
      have link := (matures.stays id _ node' found found').1
      rw [parent, parent', Option.some.injEq] at link
      subst link
      have shorter := ih rebuilds
      simp only [List.length_append, List.length_singleton]
      omega

/-- However a node is rebuilt, that takes the same number of deltas. -/
theorem Rebuilds.length_eq (rebuilds : Rebuilds nodes id base deltas)
    (rebuilds' : Rebuilds nodes id base' deltas') : deltas.length = deltas'.length := by
  have same : Matures ∅ nodes nodes := .rfl
  exact Nat.le_antisymm (rebuilds'.length_le same rebuilds) (rebuilds.length_le same rebuilds')

/-- Only solving a leaf makes an inner node. -/
theorem Move.matures {deed : Deed} {desk desk' : Desk} (move : Move deed desk desk')
    (other : deed ≠ .solve) (shaped : desk.Shaped) (fits : desk'.nodes.Fits) :
    Matures ∅ desk.nodes desk'.nodes := by
  cases move with
  | reload | adjust | load => exact .rfl
  | write found payload parent =>
    refine Matures.rfl.set found parent (fun subroot => payload ▸ subroot) fun grown => .inr ?_
    rwa [Node.kind, payload] at grown
  | record found leaf =>
    refine Matures.rfl.set found rfl (fun subroot => ?_) fun grown => absurd rfl grown
    rw [leaf] at subroot
    cases subroot
  | solve => exact absurd rfl other
  | flatten found fork =>
    refine Matures.rfl.set found rfl (fun _ => rfl) fun _ => .inr ?_
    simp [Node.kind, fork, Payload.kind]
  | plant _ leaf =>
    exact Matures.rfl.insert shaped.sound fits (SlotTable.get?_new shaped.sound fits)
      (congrArg Payload.kind leaf)
  | @sprout _ above upper child payload _ found captured leaf =>
    obtain ⟨inner, _, _, subroot, _, _⟩ := Payload.captureChild_ok captured
    have sound := shaped.sound.set above { upper with payload := payload }
    have fresh := SlotTable.get?_new sound fits
    rw [SlotTable.get?_set found] at fresh
    split at fresh
    · cases fresh
    · refine Matures.insert ?_ sound fits fresh (congrArg Payload.kind leaf)
      exact Matures.rfl.set found rfl (fun was => subroot.trans was) fun _ => .inr inner
  | fellRoot => exact Matures.rfl.erase _
  | fell found childless parent foundUpper released =>
    obtain ⟨inner, _, _, subroot, _, _⟩ := Payload.releaseChild_ok released
    exact (Matures.rfl.erase _).set foundUpper rfl (fun was => subroot.trans was)
      fun _ => .inr inner
  | wipe =>
    apply Matures.rfl.part
    intro id node found
    rw [show SlotTable.get? _ id = none from
      SlotTable.get?_eraseAll_handles shaped.fits id] at found
    cases found

/-! ### Bounds -/

/-- Every solved node is rebuilt with fewer deltas than `limit`. -/
def Shallow (limit : Nat) (nodes : SlotTable .node Node) : Prop :=
  ∀ id node base deltas, nodes.get? id = some node → node.kind ≠ .leaf →
    Rebuilds nodes id base deltas → deltas.length < limit

namespace Shallow

variable {limit : Nat} {desk desk' : Desk}

theorem mature (shallow : Shallow limit desk.nodes) (shaped : desk.Shaped) {solved : Set NodeId}
    (matures : Matures solved desk.nodes nodes')
    (short : ∀ id ∈ solved, ∀ base deltas, Rebuilds nodes' id base deltas →
      deltas.length < limit) : Shallow limit nodes' := by
  intro id node' base' deltas' found' grown rebuilds'
  obtain fresh | ⟨node, found, inner⟩ := matures.inner id node' found' grown
  · exact short id fresh base' deltas' rebuilds'
  · obtain ⟨base, deltas, rebuilds⟩ := shaped.rebuilds found
    have shorter := rebuilds.length_le matures rebuilds'
    exact shorter.trans_lt (shallow id node base deltas found inner rebuilds)

theorem moves {may : Set Deed} (shallow : Shallow limit desk.nodes)
    (moves : Moves may desk desk') (other : .solve ∉ may) (shaped : desk.Shaped)
    (fits : desk'.nodes.Fits) : Shallow limit desk'.nodes := by
  induction moves with
  | refl => exact shallow
  | tail earlier last ih =>
    obtain ⟨deed, allowed, move⟩ := last
    have different : deed ≠ .solve := by
      rintro rfl
      exact other allowed
    have fits' := Nat.le_trans move.slots_le fits
    have shaped' := Moves.shaped earlier shaped fits'
    exact (ih fits').mature shaped' (move.matures different shaped' fits) (by simp)

/-- Whatever is above a node is solved, so the node itself needs one delta more at most. -/
theorem length_le (shallow : Shallow limit desk.nodes) (shaped : desk.Shaped)
    (positive : 0 < limit) (rebuilds : Rebuilds desk.nodes id base deltas) :
    deltas.length ≤ limit := by
  cases rebuilds with
  | stored => exact Nat.zero_le _
  | top => exact positive
  | under found parent _ rebuilds =>
    obtain ⟨upper, foundUpper, inner, _⟩ := shaped.parent id _ _ found parent
    have shorter := shallow _ upper base _ foundUpper inner rebuilds
    rw [List.length_append]
    exact shorter

end Shallow

end BranchCutPrice
