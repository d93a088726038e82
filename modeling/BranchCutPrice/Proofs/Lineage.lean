import BranchCutPrice.Proofs.Shape

/-!
Walks towards the root, as relations between a node and what the walk gives. In a shaped
tree every walk from a node of the tree ends, so the functions that walk agree with them.
-/

namespace BranchCutPrice

variable {nodes : SlotTable .node Node} {id : NodeId} {node : Node}

/-- A node and its ancestors, up to the first at which a walk stops. -/
inductive Climbs (nodes : SlotTable .node Node) (stop : Node → Bool) :
    NodeId → List (NodeId × Node) → Prop where
  | last {id : NodeId} {node : Node} (found : nodes.get? id = some node)
      (ends : node.parent = none ∨ stop node = true) : Climbs nodes stop id [(id, node)]
  | step {id above : NodeId} {node : Node} {path : List (NodeId × Node)}
      (found : nodes.get? id = some node) (parent : node.parent = some above)
      (goes : stop node = false) (climbs : Climbs nodes stop above path) :
      Climbs nodes stop id ((id, node) :: path)

/-- The rows of the relaxation of a node. -/
inductive Replays (nodes : SlotTable .node Node) : NodeId → List RowId → Prop where
  | base {id : NodeId} {node : Node} (found : nodes.get? id = some node)
      (ends : node.parent = none ∨ node.payload.isSubroot = true) :
      Replays nodes id node.payload.rows
  | under {id above : NodeId} {node : Node} {rows : List RowId}
      (found : nodes.get? id = some node) (parent : node.parent = some above)
      (delta : node.payload.isSubroot = false) (replays : Replays nodes above rows) :
      Replays nodes id (rows ++ node.payload.rows)

namespace Tree

variable {tree : Tree}

theorem node_ok : tree.node id = .ok node ↔ tree.nodes.get? id = some node := by
  unfold Tree.node
  cases tree.nodes.get? id <;> simp

/-- What a walk gives is what it climbs. -/
theorem climbs_of_ascend {stop : Node → Bool} {steps : Nat} {path : List (NodeId × Node)}
    (walked : tree.ascend stop steps id = .ok path) : Climbs tree.nodes stop id path := by
  induction steps generalizing id path with
  | zero => cases walked
  | succ steps ih =>
    unfold ascend at walked
    cases found : tree.node id with
    | error e => simp [found, bind, Except.bind] at walked
    | ok node =>
      simp only [found, bind, Except.bind, pure, Except.pure] at walked
      have live := node_ok.1 found
      cases parent : node.parent with
      | none =>
        simp only [parent] at walked
        cases walked
        exact .last live (.inl parent)
      | some above =>
        simp only [parent] at walked
        by_cases stops : stop node = true
        · rw [if_pos stops] at walked
          cases walked
          exact .last live (.inr stops)
        · rw [if_neg stops] at walked
          cases rest : tree.ascend stop steps above with
          | error e => simp [rest] at walked
          | ok tail =>
            simp only [rest] at walked
            cases walked
            exact .step live parent (Bool.eq_false_iff.2 stops) (ih rest)

/-- Enough steps complete a walk. -/
theorem ascend_of_climbs {stop : Node → Bool} {path : List (NodeId × Node)}
    (climbs : Climbs tree.nodes stop id path) {steps : Nat} (enough : path.length ≤ steps) :
    tree.ascend stop steps id = .ok path := by
  induction climbs generalizing steps with
  | last found ends =>
    obtain ⟨steps, rfl⟩ := Nat.exists_eq_add_one_of_ne_zero (Nat.ne_of_gt enough)
    unfold ascend
    simp only [node_ok.2 found, bind, Except.bind, pure, Except.pure]
    obtain parent | stops := ends
    · simp only [parent]
    · split
      · rfl
      · rw [if_pos stops]
  | step found parent goes climbs ih =>
    rw [List.length_cons] at enough
    obtain ⟨steps, rfl⟩ := Nat.exists_eq_add_one_of_ne_zero (Nat.ne_of_gt (Nat.lt_of_lt_of_le
      (Nat.succ_pos _) enough))
    unfold ascend
    simp only [node_ok.2 found, bind, Except.bind, pure, Except.pure, parent]
    rw [if_neg (Bool.eq_false_iff.1 goes), ih (Nat.le_of_succ_le_succ enough)]

end Tree

/-- In a shaped tree no walk is longer than the way to the root. -/
theorem Desk.Shaped.climbs {desk : Desk} (shaped : desk.Shaped) (stop : Node → Bool)
    (found : desk.nodes.get? id = some node) :
    ∃ path, Climbs desk.nodes stop id path ∧ path.length ≤ node.depth + 1 := by
  induction depth : node.depth generalizing id node with
  | zero =>
    refine ⟨[(id, node)], .last found (.inl ?_), by simp⟩
    cases parent : node.parent with
    | none => rfl
    | some above =>
      obtain ⟨upper, _, _, next⟩ := shaped.parent id node above found parent
      omega
  | succ depth ih =>
    cases parent : node.parent with
    | none =>
      have top := (shaped.top id node found parent).1
      omega
    | some above =>
      by_cases stops : stop node = true
      · exact ⟨[(id, node)], .last found (.inr stops), by simp⟩
      · obtain ⟨upper, foundUpper, _, next⟩ := shaped.parent id node above found parent
        obtain ⟨path, climbs, short⟩ := ih foundUpper (by omega)
        refine ⟨(id, node) :: path, .step found parent (Bool.eq_false_iff.2 stops) climbs, ?_⟩
        rw [List.length_cons]
        omega

namespace Replays

/-- The rows are those of the nodes climbed, the farthest first. -/
theorem of_climbs {path : List (NodeId × Node)}
    (climbs : Climbs nodes (·.payload.isSubroot) id path) :
    Replays nodes id ((path.map Prod.snd).reverse.flatMap (·.payload.rows)) := by
  induction climbs with
  | last found ends =>
    simp only [List.map_cons, List.map_nil, List.reverse_singleton, List.flatMap_cons,
      List.flatMap_nil, List.append_nil]
    exact .base found ends
  | step found parent goes climbs ih =>
    simp only [List.map_cons, List.reverse_cons, List.flatMap_append, List.flatMap_cons,
      List.flatMap_nil, List.append_nil]
    exact .under found parent goes ih

/-- A node has one list of rows. -/
theorem unique {rows rows' : List RowId} (replays : Replays nodes id rows)
    (replays' : Replays nodes id rows') : rows = rows' := by
  induction replays generalizing rows' with
  | base found ends =>
    cases replays' with
    | base found' ends' =>
      rw [found, Option.some.injEq] at found'
      rw [found']
    | under found' parent' delta' above' =>
      rw [found, Option.some.injEq] at found'
      subst found'
      rw [parent', delta'] at ends
      simp at ends
  | under found parent delta above ih =>
    cases replays' with
    | base found' ends' =>
      rw [found, Option.some.injEq] at found'
      subst found'
      rw [parent, delta] at ends'
      simp at ends'
    | under found' parent' delta' above' =>
      rw [found, Option.some.injEq] at found'
      subst found'
      rw [parent, Option.some.injEq] at parent'
      subst parent'
      rw [ih above']

theorem live {rows : List RowId} (replays : Replays nodes id rows) :
    ∃ node, nodes.get? id = some node := by
  cases replays with
  | base found _ => exact ⟨_, found⟩
  | under found _ _ _ => exact ⟨_, found⟩

/-- What a node contributes to the rows of itself and those below. -/
def trace (nodes : SlotTable .node Node) (id : NodeId) :
    Option (Option NodeId × Bool × List RowId) :=
  (nodes.get? id).map fun node => (node.parent, node.payload.isSubroot, node.payload.rows)

/-- The rows of a node are the same in another table that agrees on it and on all nodes
above it. -/
theorem transfer {nodes' : SlotTable .node Node} {rows : List RowId} (agree : NodeId → Prop)
    (replays : Replays nodes id rows) (start : agree id)
    (up : ∀ id node above, agree id → nodes.get? id = some node → node.parent = some above →
      agree above)
    (same : ∀ id contribution, agree id → trace nodes id = some contribution →
      trace nodes' id = some contribution) :
    Replays nodes' id rows := by
  have moved (id : NodeId) (node : Node) (here : agree id) (found : nodes.get? id = some node) :
      ∃ node', nodes'.get? id = some node' ∧ node'.parent = node.parent ∧
        node'.payload.isSubroot = node.payload.isSubroot ∧
        node'.payload.rows = node.payload.rows := by
    have traced := same id _ here (congrArg (Option.map _) found)
    obtain ⟨node', found', equal⟩ := Option.map_eq_some_iff.1 traced
    simp only [Prod.mk.injEq] at equal
    exact ⟨node', found', equal⟩
  induction replays with
  | base found ends =>
    obtain ⟨node', found', parent, subroot, rows⟩ := moved _ _ start found
    rw [← rows]
    refine .base found' ?_
    rwa [parent, subroot]
  | under found parent delta above ih =>
    obtain ⟨node', found', parent', subroot, rows⟩ := moved _ _ start found
    rw [← rows]
    exact .under found' (parent'.trans parent) (subroot.trans delta)
      (ih (up _ _ _ start found parent))

/-- A node may change in place as long as its own contribution stays. -/
theorem trace_rewrite (found : nodes.get? id = some node) {node' : Node}
    (parent : node'.parent = node.parent)
    (subroot : node'.payload.isSubroot = node.payload.isSubroot)
    (rows : node'.payload.rows = node.payload.rows) (other : NodeId) :
    trace (nodes.set id node') other = trace nodes other := by
  unfold trace
  rw [SlotTable.get?_set found]
  by_cases same : other = id
  · rw [if_pos same, same, found, Option.map_some, Option.map_some, parent, subroot, rows]
  · rw [if_neg same]

theorem congr {nodes' : SlotTable .node Node} (same : ∀ id, trace nodes' id = trace nodes id)
    (rows : List RowId) : Replays nodes' id rows ↔ Replays nodes id rows := by
  constructor
  · intro replays
    exact replays.transfer (fun _ => True) trivial (fun _ _ _ _ _ _ => trivial)
      fun id _ _ traced => (same id).symm.trans traced
  · intro replays
    exact replays.transfer (fun _ => True) trivial (fun _ _ _ _ _ _ => trivial)
      fun id _ _ traced => (same id).trans traced

end Replays

namespace Tree

variable {tree : Tree}

theorem replays_of_lpRows {rows : List RowId} (listed : tree.lpRows id = .ok rows) :
    Replays tree.nodes id rows := by
  unfold lpRows lineage at listed
  cases walked : tree.ascend (·.payload.isSubroot) tree.nodes.slots.size id with
  | error e => simp [walked, bind, Except.bind] at listed
  | ok path =>
    simp only [walked, bind, Except.bind, pure, Except.pure] at listed
    cases listed
    exact .of_climbs (climbs_of_ascend walked)

variable {loaded : List RowId} (shaped : (tree.desk loaded).Shaped)
include shaped

/-- A walk from a node of a shaped tree ends. -/
theorem ascend_live (stop : Node → Bool) (found : tree.nodes.get? id = some node) :
    ∃ path, tree.ascend stop tree.nodes.slots.size id = .ok path ∧
      Climbs tree.nodes stop id path := by
  obtain ⟨path, climbs, short⟩ := shaped.climbs stop found
  have depth := shaped.depth_lt found
  exact ⟨path, ascend_of_climbs climbs (Nat.le_trans short depth), climbs⟩

theorem lineage_live (found : tree.nodes.get? id = some node) :
    ∃ nodes, tree.lineage id = .ok nodes ∧
      Replays tree.nodes id (nodes.reverse.flatMap (·.payload.rows)) := by
  obtain ⟨path, walked, climbs⟩ := ascend_live shaped (·.payload.isSubroot) found
  refine ⟨path.map Prod.snd, ?_, .of_climbs climbs⟩
  unfold lineage
  rw [walked]
  rfl

theorem lpRows_live (found : tree.nodes.get? id = some node) :
    ∃ rows, tree.lpRows id = .ok rows ∧ Replays tree.nodes id rows := by
  obtain ⟨lineage, listed, replays⟩ := lineage_live shaped found
  refine ⟨_, ?_, replays⟩
  unfold lpRows
  rw [listed]
  rfl

theorem lpRows_eq {rows : List RowId} :
    tree.lpRows id = .ok rows ↔ Replays tree.nodes id rows := by
  constructor
  · exact replays_of_lpRows
  · intro replays
    obtain ⟨node, found⟩ := replays.live
    obtain ⟨rows', listed, replays'⟩ := lpRows_live shaped found
    rw [listed, replays'.unique replays]

theorem deltaChain_live (found : tree.nodes.get? id = some node) :
    ∃ delta, tree.deltaChain id = .ok delta := by
  obtain ⟨lineage, listed, _⟩ := lineage_live shaped found
  unfold deltaChain
  rw [listed]
  exact ⟨_, rfl⟩

theorem pathTo_live (found : tree.nodes.get? id = some node) :
    ∃ path, tree.pathTo id = .ok path := by
  obtain ⟨path, walked, _⟩ := ascend_live shaped (fun _ => false) found
  unfold pathTo
  rw [walked]
  exact ⟨_, rfl⟩

end Tree

end BranchCutPrice
