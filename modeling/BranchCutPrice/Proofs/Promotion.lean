import BranchCutPrice.Proofs.Content
import BranchCutPrice.Proofs.Persistence
import BranchCutPrice.Tree.Promotion

/-!
Converting solved nodes. The warm start of a leaf is released, and a subroot exchanges the
rows it recorded for the loaded ones. A refused conversion leaves the state as it was, and
a promoted node has the loaded rows.
-/

namespace BranchCutPrice.Tree

open BranchCutPrice.Action Relaxation

variable {s : Linked Tree} {owed : Holdings} {id : NodeId} {node : Node}

/-- The state once a node has another payload. -/
structure Converted (s s' : Linked Tree) (owed : Holdings) (id : NodeId) (node : Node)
    (payload : Payload) : Prop where
  settled : Settled s' owed
  still : Still s.lp s'.lp
  settings : s'.own.settings = s.own.settings
  desk : s'.desk = { s.desk with nodes := s.own.nodes.set id { node with payload := payload } }

namespace Converted

variable {s' s'' : Linked Tree} {payload payload' : Payload}

theorem nodes (converted : Converted s s' owed id node payload) :
    s'.own.nodes = s.own.nodes.set id { node with payload := payload } :=
  congrArg Desk.nodes converted.desk

theorem found (converted : Converted s s' owed id node payload)
    (found : s.own.nodes.get? id = some node) :
    s'.own.nodes.get? id = some { node with payload := payload } := by
  rw [converted.nodes, SlotTable.get?_set found, if_pos rfl]

/-- Of two conversions the second one counts. -/
theorem again (first : Converted s s' owed id node payload)
    (second : Converted s' s'' owed id { node with payload := payload } payload')
    (found : s.own.nodes.get? id = some node) : Converted s s'' owed id node payload' := by
  refine ⟨second.settled, first.still.trans second.still,
    second.settings.trans first.settings, ?_⟩
  rw [second.desk, first.nodes, SlotTable.set_set found, first.desk]

theorem move (converted : Converted s s' owed id node payload)
    (found : s.own.nodes.get? id = some node) {basis : BasisId} {added : List RowId}
    (leaf : node.payload = .leaf basis added)
    (solved : payload = .fork added 0 ∨
      s.own.focus = some id ∧ payload = .subroot s.lp.loadedRows 0) :
    Move .solve s.desk s'.desk := by
  rw [converted.desk]
  exact .solve found leaf solved

end Converted

/-- A leaf lets go of its warm start. -/
theorem leafToFork_ensures (settled : Settled s owed) (id : NodeId) :
    (leafToFork id).Ensures s
      (fun _ s' => ∃ node basis added, s.own.nodes.get? id = some node ∧
        node.payload = .leaf basis added ∧ Converted s s' owed id node (.fork added 0))
      (fun _ s' => s' = s) := by
  unfold leafToFork
  rw [ensures_bind]
  apply ensures_read.2
  constructor
  · intro node found
    have found := node_ok.1 found
    cases leaf : node.payload with
    | fork => rfl
    | subroot => rfl
    | leaf basis added =>
      dsimp only
      rw [ensures_bind, ensures_onOwn, ensures_modify, ensures_bind, ensures_onLp]
      have holds : nodeHoldings (s.own.nodes.set id { node with payload := .fork added 0 }) +
          .ofBases {basis} = nodeHoldings s.own.nodes := by
        apply nodeHoldings_give found
        rw [leaf, Payload.holdings_fork, Payload.holdings_leaf]
      have given : s.lp.Balanced
          (owed + nodeHoldings (s.own.nodes.set id { node with payload := .fork added 0 }) +
            .ofBases {basis}) := by
        rw [add_assoc, holds]
        exact settled
      apply (releaseBasis_ensures given).imp
      · intro _ lp' released
        rw [ensures_emit]
        refine ⟨node, basis, added, found, leaf, released.1, released.2, rfl, ?_⟩
        exact congrArg (Desk.mk _ s.own.root s.own.focus s.own.stats.created s.own.stats.freed)
          released.2.loadedRows
      · intro _ _ no
        exact no.elim
  · intro _ _
    rfl

theorem requireFocus_ok {tree : Tree} {u : Unit} (focused : tree.requireFocus id = .ok u) :
    tree.focus = some id := by
  unfold requireFocus at focused
  split at focused
  · assumption
  · cases focused

/-- Exchanging recorded rows for the loaded ones, once these are captured. -/
private theorem holdings_exchange {added : List RowId} {children : Nat} (rows : List RowId)
    (found : s.own.nodes.get? id = some node) (fork : node.payload = .fork added children) :
    nodeHoldings (s.own.nodes.set id { node with payload := .subroot rows children }) +
      .ofRows added = nodeHoldings s.own.nodes + .ofRows rows := by
  have total := nodeHoldings_set found { node with payload := .subroot rows children }
  rw [fork, Payload.holdings_fork, Payload.holdings_subroot] at total
  exact total

/-- A fork exchanges the rows that it added for the loaded ones. -/
theorem forkToSubroot_ensures (settled : Settled s owed) (id : NodeId) :
    (forkToSubroot id).Ensures s
      (fun _ s' => ∃ node added children, s.own.nodes.get? id = some node ∧
        node.payload = .fork added children ∧ s.own.focus = some id ∧
        Converted s s' owed id node (.subroot s.lp.loadedRows children))
      (fun _ s' => s' = s ∧ ∀ node added children, s.own.nodes.get? id = some node →
        node.payload = .fork added children → s.own.focus ≠ some id) := by
  unfold forkToSubroot
  rw [ensures_bind]
  apply ensures_read.2
  constructor
  · intro node found
    have found := node_ok.1 found
    have only (other : Payload) (here : node.payload = other)
        (kind : ∀ added children, other ≠ .fork added children) : ∀ node added children,
        s.own.nodes.get? id = some node → node.payload = .fork added children →
        s.own.focus ≠ some id := by
      intro node' added children found' fork
      rw [found, Option.some.injEq] at found'
      rw [← found', here] at fork
      exact absurd fork (kind added children)
    cases here : node.payload with
    | leaf => exact ⟨rfl, only _ here (by simp)⟩
    | subroot => exact ⟨rfl, only _ here (by simp)⟩
    | fork added children =>
      dsimp only
      rw [ensures_bind]
      apply ensures_read.2
      constructor
      · intro _ focused
        have focus := requireFocus_ok focused
        rw [ensures_bind, ensures_get, ensures_bind, ensures_onLp]
        apply (captureRows_ensures settled s.lp.loadedRows fun _ member => member).imp
        · intro _ lp' captured
          rw [ensures_bind, ensures_onOwn, ensures_modify, ensures_bind, ensures_onLp]
          have exchanged := holdings_exchange s.lp.loadedRows found here
          have swapped : lp'.Balanced (owed + nodeHoldings (s.own.nodes.set id
              { node with payload := .subroot s.lp.loadedRows children }) + .ofRows added) := by
            rw [add_assoc, exchanged, ← add_assoc]
            exact captured.1
          apply (releaseRows_ensures added swapped).imp
          · intro _ lp'' released
            rw [ensures_emit]
            have still := captured.2.trans released.2
            refine ⟨node, added, children, found, here, focus, released.1, still, rfl, ?_⟩
            exact congrArg
              (Desk.mk _ s.own.root s.own.focus s.own.stats.created s.own.stats.freed)
              still.loadedRows
          · intro _ _ no
            exact no.elim
        · intro _ _ no
          exact no.elim
      · intro _ refused
        refine ⟨rfl, fun _ _ _ _ _ => ?_⟩
        unfold requireFocus at refused
        split at refused
        · cases refused
        · assumption
  · intro e refused
    refine ⟨rfl, ?_⟩
    intro node added children found
    rw [node_ok.2 found] at refused
    cases refused

/-- The rows of the node above and the recorded ones are the rows of a leaf. -/
theorem replays_of_extendedRows {tree : Tree} {rows : List RowId} {basis : BasisId}
    {added : List RowId} (found : tree.nodes.get? id = some node)
    (leaf : node.payload = .leaf basis added) (extended : tree.extendedRows node = .ok rows) :
    Replays tree.nodes id rows := by
  unfold extendedRows at extended
  have recorded : node.payload.rows = node.payload.added := by
    rw [leaf]
    rfl
  cases parent : node.parent with
  | none =>
    rw [parent] at extended
    cases extended
    rw [← recorded]
    exact .base found (.inl parent)
  | some above =>
    simp only [parent, bind, Except.bind, pure, Except.pure] at extended
    cases listed : tree.lpRows above with
    | error e => simp [listed] at extended
    | ok upper =>
      rw [listed] at extended
      cases extended
      rw [← recorded]
      exact .under found parent (by rw [leaf]; rfl) (replays_of_lpRows listed)

/-- What becomes of a solved leaf: a subroot with the loaded rows, or a fork if these are its
rows anyway and the policy lets it be. -/
inductive Promoted (s s' : Linked Tree) (id : NodeId) : Prop where
  | subroot {owed : Holdings} {node : Node} {basis : BasisId} {added : List RowId}
      (found : s.own.nodes.get? id = some node) (leaf : node.payload = .leaf basis added)
      (focus : s.own.focus = some id)
      (converted : Converted s s' owed id node (.subroot s.lp.loadedRows 0)) : Promoted s s' id
  | fork {owed : Holdings} {node : Node} {basis : BasisId} {added : List RowId}
      {chain delta : Nat} (found : s.own.nodes.get? id = some node)
      (leaf : node.payload = .leaf basis added)
      (converted : Converted s s' owed id node (.fork added 0))
      (replays : Replays s.own.nodes id s.lp.loadedRows)
      (counted : s'.own.deltaChain id = .ok (chain, delta))
      (spared : s.own.settings.policy.shouldFlatten chain delta s.lp.loadedRows.length = false) :
      Promoted s s' id

namespace Promoted

variable {s' : Linked Tree}

theorem move (promoted : Promoted s s' id) : Move .solve s.desk s'.desk := by
  cases promoted with
  | subroot found leaf focus converted => exact converted.move found leaf (.inr ⟨focus, rfl⟩)
  | fork found leaf converted => exact converted.move found leaf (.inl rfl)

theorem still (promoted : Promoted s s' id) : Still s.lp s'.lp := by
  cases promoted with
  | subroot _ _ _ converted | fork _ _ converted => exact converted.still

/-- A node that recorded all rows loaded since keeps its rows as a fork. -/
theorem solved (promoted : Promoted s s' id) : s'.desk.Solved id s.lp.loadedRows := by
  cases promoted with
  | subroot found leaf focus converted =>
    have foundSubroot := converted.found found
    exact ⟨⟨_, foundSubroot, by simp [Node.kind, Payload.kind]⟩, .base foundSubroot (.inr rfl)⟩
  | @fork _ node basis added _ _ found leaf converted replays =>
    refine ⟨⟨_, converted.found found, by simp [Node.kind, Payload.kind]⟩, ?_⟩
    have traces := Replays.trace_rewrite found
      (show ({ node with payload := .fork added 0 } : Node).parent = node.parent from rfl)
      (by rw [leaf]; rfl) (by rw [leaf]; rfl)
    rw [converted.desk]
    exact (Replays.congr traces s.lp.loadedRows).2 replays

end Promoted

/-- A new fork that is the focus can store the loaded rows. -/
private theorem flatten_ensures {middle : Linked Tree} {basis : BasisId} {added : List RowId}
    (found : s.own.nodes.get? id = some node) (leaf : node.payload = .leaf basis added)
    (focus : s.own.focus = some id) (forked : Converted s middle owed id node (.fork added 0)) :
    (forkToSubroot id).Ensures middle (fun _ s' => Settled s' owed ∧ Promoted s s' id)
      (fun _ _ => False) := by
  have foundFork := forked.found found
  apply (forkToSubroot_ensures forked.settled id).imp
  · intro _ s' flattened
    obtain ⟨node', added', children, found', fork, _, flattened⟩ := flattened
    rw [foundFork, Option.some.injEq] at found'
    subst found'
    cases fork
    have converted := forked.again flattened found
    rw [forked.still.loadedRows] at converted
    exact ⟨converted.settled, .subroot found leaf focus converted⟩
  · intro _ _ refused
    have focused : middle.own.focus = some id :=
      (congrArg Desk.focus forked.desk).trans focus
    exact refused.2 _ _ _ foundFork rfl focused

theorem promote_converts (settled : Settled s owed) (shaped : s.desk.Shaped) (id : NodeId) :
    (promote id).Ensures s (fun _ s' => Settled s' owed ∧ Promoted s s' id)
      (fun _ s' => s' = s) := by
  unfold promote
  rw [ensures_bind]
  apply ensures_read.2
  refine ⟨fun node leaf => ?_, fun _ _ => rfl⟩
  obtain ⟨found, basis, added, leaf⟩ := getLeaf_ok.1 leaf
  rw [ensures_bind]
  apply ensures_read.2
  refine ⟨fun _ focused => ?_, fun _ _ => rfl⟩
  have focus := requireFocus_ok focused
  rw [ensures_bind]
  apply ensures_read.2
  refine ⟨fun expected extended => ?_, fun _ _ => rfl⟩
  have replays := replays_of_extendedRows found leaf extended
  rw [ensures_bind, ensures_get]
  dsimp only
  rw [ensures_bind]
  apply (leafToFork_ensures settled id).imp
  · intro _ middle forked
    obtain ⟨node', basis', added', found', leaf', forked⟩ := forked
    rw [found, Option.some.injEq] at found'
    subst found'
    rw [leaf, Payload.leaf.injEq] at leaf'
    obtain ⟨rfl, rfl⟩ := leaf'
    rw [ensures_bind]
    apply ensures_read.2
    constructor
    · intro ⟨chain, delta⟩ counted
      dsimp only
      rw [ensures_bind, ensures_get]
      split
      · rw [ensures_bind]
        apply (flatten_ensures found leaf focus forked).imp
        · intro _ _ done
          exact done
        · intro _ _ no
          exact no.elim
      · rename_i kept
        simp only [Bool.or_eq_true, not_or, Bool.not_eq_true, Bool.not_eq_false', beq_iff_eq]
          at kept
        obtain ⟨same, spared⟩ := kept
        rw [same] at replays
        rw [forked.settings, forked.still.loadedRows] at spared
        exact ⟨forked.settled, .fork found leaf forked replays counted spared⟩
    · intro e refused
      have moves := Moves.one (forked.move found leaf (.inl rfl)) (Set.mem_singleton Deed.solve)
      have shaped' : (middle.own.desk middle.lp.loadedRows).Shaped :=
        moves.shaped_of_shrinking (by simp) shaped
      obtain ⟨delta, counted⟩ := deltaChain_live shaped' (forked.found found)
      rw [counted] at refused
      cases refused
  · intro _ _ same
    exact same

theorem promote_ensures (settled : Settled s owed) (shaped : s.desk.Shaped) (id : NodeId) :
    (promote id).Ensures s
      (fun _ s' => (Settled s' owed ∧ Moves {.solve} s.desk s'.desk) ∧ Still s.lp s'.lp ∧
        s'.desk.Solved id s.lp.loadedRows)
      (fun _ s' => s' = s) := by
  apply (promote_converts settled shaped id).imp
  · intro _ s' done
    obtain ⟨settled', promoted⟩ := done
    exact ⟨⟨settled', .one promoted.move (Set.mem_singleton _)⟩, promoted.still, promoted.solved⟩
  · intro _ _ same
    exact same

end BranchCutPrice.Tree
