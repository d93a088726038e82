import BranchCutPrice.Proofs.Ledger
import BranchCutPrice.Proofs.Moves
import BranchCutPrice.Tree.Content

/-!
What the nodes of a tree hold, and what is recorded at them. Each operation on a tree keeps
the state settled and makes moves on the desk, refused or not.
-/

namespace BranchCutPrice

/-- Each row of a node is held once per occurrence, and so is the basis of a leaf. -/
def Payload.holdings (payload : Payload) : Holdings :=
  .ofRows payload.rows + .ofBases (payload.basis?.toList : List BasisId)

theorem Payload.holdings_leaf (basis : BasisId) (added : List RowId) :
    (leaf basis added).holdings = .ofRows added + .ofBases {basis} :=
  rfl

theorem Payload.holdings_append {payload : Payload} {basis : BasisId} {added : List RowId}
    (leaf : payload = .leaf basis added) (row : RowId) :
    (Payload.leaf basis (added ++ [row])).holdings = payload.holdings + .ofRows {row} := by
  rw [leaf, holdings_leaf, holdings_leaf, ← Multiset.coe_add, Holdings.ofRows_add, add_right_comm]
  rfl

theorem Payload.holdings_fork (added : List RowId) (children : Nat) :
    (fork added children).holdings = .ofRows added :=
  add_zero _

theorem Payload.holdings_subroot (rows : List RowId) (children : Nat) :
    (subroot rows children).holdings = .ofRows rows :=
  add_zero _

/-- What the nodes hold together. -/
def nodeHoldings (nodes : SlotTable .node Node) : Holdings :=
  nodes.total fun node => node.payload.holdings

instance : Holder Tree where
  holdings tree := nodeHoldings tree.nodes

/-- A tree with the rows that are loaded beside it. -/
def Linked.desk (s : Linked Tree) : Desk :=
  s.own.desk s.lp.loadedRows

section Holdings

variable {nodes : SlotTable .node Node} {id : NodeId} {node : Node}

theorem nodeHoldings_set (found : nodes.get? id = some node) (node' : Node) :
    nodeHoldings (nodes.set id node') + node.payload.holdings =
      nodeHoldings nodes + node'.payload.holdings :=
  SlotTable.total_set _ node' found

theorem nodeHoldings_rewrite (found : nodes.get? id = some node) {node' : Node}
    (same : node'.payload.holdings = node.payload.holdings) :
    nodeHoldings (nodes.set id node') = nodeHoldings nodes := by
  have total := nodeHoldings_set found node'
  rw [same] at total
  exact add_right_cancel total

theorem nodeHoldings_take (found : nodes.get? id = some node) {node' : Node} {more : Holdings}
    (holds : node'.payload.holdings = node.payload.holdings + more) :
    nodeHoldings (nodes.set id node') = nodeHoldings nodes + more := by
  have total := nodeHoldings_set found node'
  rw [holds, ← add_assoc, add_right_comm] at total
  exact add_right_cancel total

theorem nodeHoldings_give (found : nodes.get? id = some node) {node' : Node} {less : Holdings}
    (holds : node'.payload.holdings + less = node.payload.holdings) :
    nodeHoldings (nodes.set id node') + less = nodeHoldings nodes := by
  have total := nodeHoldings_set found node'
  rw [← holds, ← add_assoc, add_right_comm] at total
  exact add_right_cancel total

theorem nodeHoldings_erase (found : nodes.get? id = some node) :
    nodeHoldings (nodes.erase id) + node.payload.holdings = nodeHoldings nodes :=
  SlotTable.total_erase _ found

theorem nodeHoldings_insert (sound : nodes.Sound) (node : Node) :
    nodeHoldings (nodes.insert node).2 = nodeHoldings nodes + node.payload.holdings :=
  SlotTable.total_insert _ sound node

theorem mem_nodeHoldings_rows (found : nodes.get? id = some node) {row : RowId}
    (member : row ∈ node.payload.rows) : row ∈ (nodeHoldings nodes).rows := by
  rw [← nodeHoldings_erase found, Holdings.rows_add]
  apply Multiset.mem_add.2
  right
  unfold Payload.holdings
  rw [Holdings.rows_add]
  exact Multiset.mem_add.2 (.inl member)

theorem mem_nodeHoldings_bases (found : nodes.get? id = some node) {basis : BasisId}
    (warm : node.payload.basis? = some basis) : basis ∈ (nodeHoldings nodes).bases := by
  rw [← nodeHoldings_erase found, Holdings.bases_add]
  apply Multiset.mem_add.2
  right
  unfold Payload.holdings
  rw [warm, Holdings.bases_add]
  exact Multiset.mem_add.2 (.inr (List.mem_singleton.2 rfl))

theorem Payload.holdings_congr {payload payload' : Payload} (rows : payload'.rows = payload.rows)
    (basis : payload'.basis? = payload.basis?) : payload'.holdings = payload.holdings := by
  unfold Payload.holdings
  rw [rows, basis]

theorem Payload.count_holdings_bases (payload : Payload) (basis : BasisId) :
    payload.holdings.bases.count basis = if payload.basis? = some basis then 1 else 0 := by
  unfold Payload.holdings
  cases payload.basis? with
  | none => simp [Holdings.ofRows, Holdings.ofBases]
  | some warm =>
    simp only [Holdings.bases_add, Holdings.ofRows, Holdings.ofBases, Option.some.injEq]
    simp [Multiset.count_singleton, eq_comm]

theorem Payload.count_holdings_rows (payload : Payload) (row : RowId) :
    payload.holdings.rows.count row = payload.rows.count row := by
  unfold Payload.holdings
  simp [Holdings.ofRows, Holdings.ofBases]

theorem Payload.count_holdings_columns (payload : Payload) (column : ColumnId) :
    payload.holdings.columns.count column = 0 := by
  unfold Payload.holdings
  simp [Holdings.ofRows, Holdings.ofBases]

@[simp]
theorem Payload.holdings_withChildren (payload : Payload) (count : Nat) :
    (payload.withChildren count).holdings = payload.holdings := by
  cases payload <;> rfl

theorem Payload.kind_leaf {payload : Payload} :
    payload.kind = .leaf ↔ ∃ basis added, payload = .leaf basis added := by
  cases payload <;> simp [kind]

/-- The rows of a node are held by it and the nodes above it. -/
theorem Replays.held {rows : List RowId} (replays : Replays nodes id rows) {row : RowId}
    (member : row ∈ rows) : row ∈ (nodeHoldings nodes).rows := by
  induction replays with
  | base found _ => exact mem_nodeHoldings_rows found member
  | under found _ _ _ ih =>
    obtain above | here := List.mem_append.1 member
    · exact ih above
    · exact mem_nodeHoldings_rows found here

end Holdings

namespace Tree

variable {tree tree' tree'' : Tree} {id : NodeId} {node : Node}

theorem getLeaf_ok : tree.getLeaf id = .ok node ↔
    tree.nodes.get? id = some node ∧ ∃ basis added, node.payload = .leaf basis added := by
  rw [← Payload.kind_leaf]
  unfold getLeaf Tree.node
  cases found : tree.nodes.get? id with
  | none => simp [bind, Except.bind]
  | some here =>
    simp only [bind, Except.bind, Option.some.injEq]
    by_cases leaf : here.kind = .leaf
    · rw [if_pos leaf]
      constructor
      · intro same
        cases same
        exact ⟨rfl, leaf⟩
      · intro same
        rw [same.1]
        rfl
    · rw [if_neg leaf]
      constructor
      · intro same
        cases same
      · intro same
        rw [same.1] at leaf
        exact absurd same.2 leaf

/-! ### Touching up nodes -/

/-- Only what is neither held nor part of the shape differs. -/
structure Touched (tree tree' : Tree) : Prop where
  holds : nodeHoldings tree'.nodes = nodeHoldings tree.nodes
  root : tree'.root = tree.root
  focus : tree'.focus = tree.focus
  created : tree'.stats.created = tree.stats.created
  freed : tree'.stats.freed = tree.stats.freed
  payloads : ∀ id node, tree.nodes.get? id = some node →
    ∃ node', tree'.nodes.get? id = some node' ∧ node'.payload = node.payload
  moves : ∀ desk : Desk, desk.nodes = tree.nodes →
    Moves {.plain} desk { desk with nodes := tree'.nodes }

namespace Touched

/-- Nothing on the desk differs. -/
theorem of_nodes (nodes : tree'.nodes = tree.nodes) (root : tree'.root = tree.root)
    (focus : tree'.focus = tree.focus) (stats : tree'.stats = tree.stats) :
    Touched tree tree' := by
  refine ⟨congrArg nodeHoldings nodes, root, focus, congrArg _ stats, congrArg _ stats, ?_, ?_⟩
  · intro id node found
    exact ⟨node, by rw [nodes, found], Eq.refl _⟩
  · intro desk same
    rw [nodes, ← same]
    exact .rfl

theorem rfl : Touched tree tree :=
  of_nodes (Eq.refl _) (Eq.refl _) (Eq.refl _) (Eq.refl _)

theorem trans (first : Touched tree tree') (second : Touched tree' tree'') :
    Touched tree tree'' := by
  refine ⟨second.holds.trans first.holds, second.root.trans first.root,
    second.focus.trans first.focus, second.created.trans first.created,
    second.freed.trans first.freed, ?_, ?_⟩
  · intro id node found
    obtain ⟨node', found', same⟩ := first.payloads id node found
    obtain ⟨node'', found'', same'⟩ := second.payloads id node' found'
    exact ⟨node'', found'', same'.trans same⟩
  · intro desk same
    exact (first.moves desk same).trans
      (second.moves { desk with nodes := tree'.nodes } (Eq.refl _))

theorem write (found : tree.nodes.get? id = some node) {node' : Node}
    (payload : node'.payload = node.payload) (parent : node'.parent = node.parent)
    (depth : node'.depth = node.depth) : Touched tree (tree.setNode id node') := by
  refine ⟨?_, Eq.refl _, Eq.refl _, Eq.refl _, Eq.refl _, ?_, ?_⟩
  · exact nodeHoldings_rewrite found (congrArg Payload.holdings payload)
  · intro other here foundHere
    have look := SlotTable.get?_set found node' other
    by_cases same : other = id
    · rw [same, found, Option.some.injEq] at foundHere
      rw [if_pos same] at look
      exact ⟨node', look, foundHere ▸ payload⟩
    · rw [if_neg same] at look
      exact ⟨here, look.trans foundHere, Eq.refl _⟩
  · intro desk same
    change Moves {.plain} desk { desk with nodes := tree.nodes.set id node' }
    rw [← same] at found ⊢
    exact .one (.write found payload parent depth) (Set.mem_singleton _)

theorem desk (touched : Touched tree tree') (loaded : List RowId) :
    Moves {.plain} (tree.desk loaded) (tree'.desk loaded) := by
  have moves := touched.moves (tree.desk loaded) (Eq.refl _)
  unfold Tree.desk at moves ⊢
  rw [touched.root, touched.focus, touched.created, touched.freed]
  exact moves

theorem settled {lp : Relaxation} {owed : Holdings} (touched : Touched tree tree')
    (settled : Settled (Linked.mk tree lp) owed) : Settled (Linked.mk tree' lp) owed :=
  settled.congr touched.holds

end Touched

/-! ### Operations -/

open BranchCutPrice.Action

theorem addDomainChange_reaches (tree : Tree) (id : NodeId) (change : BoundChange) :
    (addDomainChange id change).Reaches tree (Touched tree) := by
  apply ensures_change.2
  constructor
  · intro tree' changed
    split at changed
    · cases changed
    · cases found : tree.node id with
      | error e => simp [found, bind, Except.bind] at changed
      | ok node =>
        rw [found] at changed
        cases changed
        exact .write (node_ok.1 found) rfl rfl rfl
  · intro _ _
    exact .rfl

theorem setConstraints_reaches (tree : Tree) (id : NodeId) (constraints : List Nat) :
    (setConstraints id constraints).Reaches tree (Touched tree) := by
  apply ensures_change.2
  constructor
  · intro tree' changed
    cases found : tree.node id with
    | error e => simp [found, bind, Except.bind] at changed
    | ok node =>
      rw [found] at changed
      cases changed
      exact .write (node_ok.1 found) rfl rfl rfl
  · intro _ _
    exact .rfl

theorem requeue_touched (tree : Tree) (id : NodeId) (node : Node) :
    Touched tree (tree.requeue id node) := by
  unfold requeue
  split
  · exact .of_nodes rfl rfl rfl rfl
  · exact .rfl

theorem raiseBound_reaches (tree : Tree) (id : NodeId) (bound : Float) :
    (raiseBound id bound).Reaches tree (Touched tree) := by
  unfold Reaches raiseBound
  split
  · exact .rfl
  · change (Action.read _ >>= _).Ensures tree _ _
    rw [ensures_bind]
    apply ensures_read.2
    constructor
    · intro node found
      split
      · exact .rfl
      · rw [ensures_bind, ensures_modify]
        have written := Touched.write (getLeaf_ok.1 found).1
          (show ({ node with bound := bound } : Node).payload = node.payload from rfl) rfl rfl
        exact written.trans (requeue_touched _ id _)
    · intro _ _
      exact .rfl

theorem insertLeaf_reaches (tree : Tree) (id : NodeId) :
    (insertLeaf id).Reaches tree (Touched tree) := by
  apply ensures_change.2
  constructor
  · intro tree' changed
    cases found : tree.getLeaf id with
    | error e => simp [found, bind, Except.bind] at changed
    | ok node =>
      simp only [found, bind, Except.bind, pure, Except.pure] at changed
      split at changed
      · cases changed
        exact .rfl
      · cases changed
        exact .of_nodes rfl rfl rfl rfl
  · intro _ _
    exact .rfl

theorem removeLeaf_reaches (tree : Tree) (id : NodeId) :
    (removeLeaf id).Reaches tree (Touched tree) := by
  apply ensures_change.2
  constructor
  · intro tree' changed
    split at changed
    · cases changed
      exact .of_nodes rfl rfl rfl rfl
    · cases changed
  · intro _ _
    exact .rfl

theorem popLeaf_reaches (tree : Tree) : popLeaf.Reaches tree (Touched tree) := by
  unfold Reaches popLeaf
  rw [ensures_modifyGet]
  split
  · exact .rfl
  · exact .of_nodes rfl rfl rfl rfl

/-- An operation on the tree alone, beside a relaxation. -/
theorem onOwn_reaches {α : Type} {act : Action Tree α} {s : Linked Tree} {owed : Holdings}
    (settled : Settled s owed) (touches : act.Reaches s.own (Touched s.own)) :
    (onOwn act).Reaches s fun s' => Settled s' owed ∧ Moves {.plain} s.desk s'.desk := by
  apply ensures_onOwn.2
  apply touches.imp
  · intro _ tree' touched
    exact ⟨touched.settled settled, touched.desk _⟩
  · intro _ tree' touched
    exact ⟨touched.settled settled, touched.desk _⟩

theorem recordRow_leaf {basis : BasisId} {added : List RowId}
    (found : tree.nodes.get? id = some node) (leaf : node.payload = .leaf basis added)
    (row : RowId) :
    tree.recordRow id row = tree.setPayload id node (.leaf basis (added ++ [row])) := by
  unfold recordRow
  simp only [found, leaf]

/-- A row loaded at the focus is held twice, by the relaxation and by the leaf. A row that is
there and not loaded can be added at a leaf that is the focus. -/
theorem addRow_ensures {s : Linked Tree} {owed : Holdings} (settled : Settled s owed)
    (id : NodeId) (row : RowId) :
    (addRow id row).Ensures s
      (fun _ s' => (Settled s' owed ∧ Moves {.plain} s.desk s'.desk) ∧
        s'.own = s.own.recordRow id row ∧ s'.lp.loadedRows = s.lp.loadedRows ++ [row])
      (fun _ s' => s' = s ∧ ∀ node basis added, s.own.focus = some id →
        s.own.nodes.get? id = some node → node.payload = .leaf basis added →
        s.lp.rows.contains row = true → row ∈ s.lp.loadedRows) := by
  unfold addRow
  rw [ensures_bind, ensures_get]
  split
  · rename_i unfocused
    refine ⟨rfl, ?_⟩
    intro _ _ _ focus
    rw [focus] at unfocused
    simp at unfocused
  · rename_i focused
    have focus : s.own.focus = some id := by
      simpa using focused
    change (Action.read _ >>= _).Ensures s _ _
    rw [ensures_bind]
    apply ensures_read.2
    constructor
    · intro node found
      obtain ⟨found, basis, added, leaf⟩ := getLeaf_ok.1 found
      rw [ensures_bind, ensures_onLp]
      apply (Relaxation.loadRow_ensures settled row).imp
      · intro _ lp' loaded
        obtain ⟨balanced, rows, _, fresh⟩ := loaded
        rw [ensures_bind, ensures_onLp]
        have held : row ∈ (owed + Holder.holdings s.own).rows + lp'.loadedRows := by
          rw [rows]
          simp
        apply (Relaxation.captureRow_held balanced held).imp
        · intro _ lp'' captured
          have loaded : lp''.loadedRows = s.desk.loaded ++ [row] :=
            captured.2.loadedRows.trans rows
          rw [ensures_onOwn, ensures_modify]
          refine ⟨?_, rfl, loaded⟩
          rw [recordRow_leaf found leaf]
          constructor
          · have taken : Settled (Linked.mk s.own lp'') (owed + .ofRows {row}) := by
              unfold Settled
              rw [add_right_comm]
              exact captured.1
            exact taken.take (nodeHoldings_take found (Payload.holdings_append leaf row))
          · have moved := Move.record (show s.desk.nodes.get? id = some node from found) leaf
              focus fresh
            rw [← loaded] at moved
            exact .one moved (Set.mem_singleton _)
        · intro _ _ no
          exact no.elim
      · intro _ lp' refused
        refine ⟨congrArg (Linked.mk s.own) refused.1, ?_⟩
        intro _ _ _ _ _ _ live
        obtain twice | stale := refused.2
        · exact twice
        · rw [show (Ledger.lp s).rows.contains row = true from live] at stale
          cases stale
    · intro e refused
      refine ⟨rfl, ?_⟩
      intro node basis added _ found leaf
      rw [getLeaf_ok.2 ⟨found, basis, added, leaf⟩] at refused
      cases refused

theorem addRow_reaches {s : Linked Tree} {owed : Holdings} (settled : Settled s owed)
    (id : NodeId) (row : RowId) :
    (addRow id row).Reaches s fun s' => Settled s' owed ∧ Moves {.plain} s.desk s'.desk := by
  apply (addRow_ensures settled id row).imp
  · intro _ _ added
    exact added.1
  · intro _ _ refused
    rw [refused.1]
    exact ⟨settled, .rfl⟩

end Tree

end BranchCutPrice
