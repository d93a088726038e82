import BranchCutPrice.Proofs.Handover
import BranchCutPrice.Proofs.Separating

/-!
The rounds of a session. A separation round holds its cuts until all that have a place were added,
so that none of them is refused at a leaf that is the focus. Hence a client that hands in live rows
and columns never sees a round refused.
-/

namespace BranchCutPrice

open BranchCutPrice.Action

variable {owed : Holdings}

/-! ### Cuts -/

/-- The focus is a leaf. -/
def Tree.AtLeaf (tree : Tree) (id : NodeId) : Prop :=
  tree.focus = some id ∧ ∃ node, tree.getLeaf id = .ok node

/-- A leaf recorded some rows, and nothing else in the tree differs. -/
structure Tree.Records (tree : Tree) (id : NodeId) (new : List RowId) (tree' : Tree) : Prop where
  here : ∃ node basis added, tree.nodes.get? id = some node ∧ node.payload = .leaf basis added ∧
    tree'.nodes.get? id = some { node with payload := .leaf basis (added ++ new) }
  beside : ∀ other, other ≠ id → tree'.nodes.get? other = tree.nodes.get? other
  rest : tree' = { tree with nodes := tree'.nodes }
  holds : nodeHoldings tree'.nodes = nodeHoldings tree.nodes + .ofRows new

namespace Tree.Records

variable {tree tree' tree'' : Tree} {id : NodeId} {new more : List RowId}

theorem none (atLeaf : tree.AtLeaf id) : tree.Records id [] tree := by
  obtain ⟨_, node, leaf⟩ := atLeaf
  obtain ⟨found, basis, added, payload⟩ := getLeaf_ok.1 leaf
  refine ⟨⟨node, basis, added, found, payload, ?_⟩, fun _ _ => rfl, rfl, (add_zero _).symm⟩
  rw [List.append_nil, ← payload]
  exact found

theorem one (atLeaf : tree.AtLeaf id) (row : RowId) :
    tree.Records id [row] (tree.recordRow id row) := by
  obtain ⟨_, node, leaf⟩ := atLeaf
  obtain ⟨found, basis, added, payload⟩ := getLeaf_ok.1 leaf
  rw [recordRow_leaf found payload]
  have written := SlotTable.get?_set found { node with payload := .leaf basis (added ++ [row]) }
  refine ⟨⟨node, basis, added, found, payload, (written id).trans (if_pos rfl)⟩, ?_, rfl, ?_⟩
  · intro other different
    exact (written other).trans (if_neg different)
  · exact nodeHoldings_take found (Payload.holdings_append payload row)

theorem trans (first : tree.Records id new tree') (second : tree'.Records id more tree'') :
    tree.Records id (new ++ more) tree'' := by
  obtain ⟨node, basis, added, found, payload, found'⟩ := first.here
  obtain ⟨node', basis', added', again, payload', found''⟩ := second.here
  cases found'.symm.trans again
  cases payload'
  refine ⟨⟨node, basis, added, found, payload, ?_⟩, fun other different => ?_, ?_, ?_⟩
  · rw [← List.append_assoc]
    exact found''
  · exact (second.beside other different).trans (first.beside other different)
  · rw [second.rest, first.rest]
  · rw [second.holds, first.holds, add_assoc, ← Holdings.ofRows_add, Multiset.coe_add]

theorem atLeaf (records : tree.Records id new tree') (atLeaf : tree.AtLeaf id) :
    tree'.AtLeaf id := by
  obtain ⟨node, basis, added, _, _, found'⟩ := records.here
  refine ⟨?_, _, getLeaf_ok.2 ⟨found', basis, added ++ new, rfl⟩⟩
  rw [records.rest]
  exact atLeaf.1

end Tree.Records

/-- A row that is held and not loaded can be added at the focus. -/
theorem Tree.addRow_completes {s : Linked Tree} (settled : Settled s owed) {id : NodeId}
    (atLeaf : s.own.AtLeaf id) {row : RowId} (held : row ∈ owed.rows)
    (unloaded : row ∉ s.lp.loadedRows) :
    (addRow id row).Completes s fun _ s' => Settled s' owed ∧ s.own.Records id [row] s'.own ∧
      s'.lp.loadedRows = s.lp.loadedRows ++ [row] := by
  have balanced : s.lp.Balanced (owed + Holder.holdings s.own) := settled
  apply (addRow_ensures settled id row).imp
  · intro _ s' added
    obtain ⟨⟨settled', _⟩, own, loaded⟩ := added
    refine ⟨settled', ?_, loaded⟩
    rw [own]
    exact .one atLeaf row
  · intro _ _ refused
    obtain ⟨focus, node, found⟩ := atLeaf
    obtain ⟨found, basis, added, leaf⟩ := getLeaf_ok.1 found
    have live : s.lp.rows.contains row = true := by
      apply balanced.rows.live
      rw [Holdings.rows_add, add_assoc]
      exact Multiset.mem_add.2 (.inl held)
    exact unloaded (refused.2 node basis added focus found leaf live)

namespace SeparationRound

/-- The rows that are added beside some loaded ones. -/
def picks (limit : Nat) : (loaded : List RowId) → (optional : Nat) → List StoredCut → List RowId
  | _, _, [] => []
  | loaded, optional, cut :: rest =>
      if !cut.forced && limit ≤ optional then []
      else if cut.row ∈ loaded then picks limit loaded optional rest
      else cut.row ::
        picks limit (loaded ++ [cut.row]) (if cut.forced then optional else optional + 1) rest

/-- At the focus, if it is a leaf, all cuts that have a place are added. -/
theorem addCuts_adds {s : Linked Tree} (settled : Settled s owed) {id : NodeId}
    (atLeaf : s.own.AtLeaf id) (limit optional : Nat) {cuts : List StoredCut}
    (held : ∀ cut ∈ cuts, cut.row ∈ owed.rows) :
    (addCuts id limit optional cuts).Completes s fun count s' => Settled s' owed ∧
      count = (picks limit s.lp.loadedRows optional cuts).length ∧
      s.own.Records id (picks limit s.lp.loadedRows optional cuts) s'.own ∧
      s'.lp.loadedRows = s.lp.loadedRows ++ picks limit s.lp.loadedRows optional cuts := by
  induction cuts generalizing s optional with
  | nil => exact ⟨settled, rfl, .none atLeaf, (List.append_nil _).symm⟩
  | cons cut rest ih =>
    obtain ⟨here, later⟩ := List.forall_mem_cons.1 held
    have balanced : s.lp.Balanced (owed + Holder.holdings s.own) := settled
    unfold addCuts picks
    split
    · exact ⟨settled, rfl, .none atLeaf, (List.append_nil _).symm⟩
    · simp only [Completes, ensures_bind, ensures_get, balanced.isRowLoaded_iff]
      split
      · exact ih settled atLeaf optional later
      · rename_i unloaded
        rw [ensures_bind]
        apply (Tree.addRow_completes settled atLeaf here unloaded).mono
        intro _ s₁ added
        obtain ⟨settled₁, records₁, loaded₁⟩ := added
        rw [ensures_bind, ← loaded₁]
        apply (ih settled₁ (records₁.atLeaf atLeaf) _ later).mono
        intro more s₂ done
        obtain ⟨settled₂, count, records₂, loaded₂⟩ := done
        rw [ensures_pure]
        refine ⟨settled₂, congrArg (· + 1) count, records₁.trans records₂, ?_⟩
        rw [loaded₂, loaded₁, List.append_assoc]
        rfl

/-- The rows that a round adds once its cuts are sorted. -/
def picked (s : Linked (SeparationRound × Tree)) (limit : Nat) : List RowId :=
  picks limit s.lp.loadedRows 0 (Ranking.sort StoredCut.before s.own.1.cuts)

/-- The round holds its cuts until all that have a place were added. -/
theorem apply_adds {s : Linked (SeparationRound × Tree)} (settled : Settled s owed)
    {id : NodeId} (atLeaf : s.own.2.AtLeaf id) (limit : Nat) :
    (SeparationRound.apply id limit).Completes s fun count s' => Settled s' owed ∧
      ∃ t : Linked Tree, (count = (picked s limit).length ∧ s.own.2.Records id (picked s limit) t.own ∧
        t.lp.loadedRows = s.lp.loadedRows ++ picked s limit) ∧ Closes t s' := by
  have held : ∀ cut ∈ Ranking.sort StoredCut.before s.own.1.cuts,
      cut.row ∈ (owed + Holder.holdings s.own.1).rows := by
    intro cut member
    have stored : cut.row ∈ s.own.1.rows :=
      List.mem_map_of_mem ((Ranking.sort_perm _ _).mem_iff.1 member)
    rw [Holdings.rows_add]
    exact Multiset.mem_add.2 (.inr stored)
  let adds (count : Nat) (t : Linked Tree) : Prop := count = (picked s limit).length ∧
    s.own.2.Records id (picked s limit) t.own ∧
      t.lp.loadedRows = s.lp.loadedRows ++ picked s limit
  let none (_ : Error) (_ : Linked Tree) : Prop := False
  have added :
      (addCuts id limit 0 (Ranking.sort StoredCut.before s.own.1.cuts)).Ensures (treeBeside s)
        (fun count t => Settled t (owed + Holder.holdings s.own.1) ∧ adds count t)
        (fun e t => Settled t (owed + Holder.holdings s.own.1) ∧ none e t) := by
    exact Completes.leads (addCuts_adds settled.right atLeaf limit 0 held) fun _ _ done => done
  apply (apply_closes added).imp
  · intro _ _ done
    exact done
  · intro _ _ closed
    obtain ⟨_, _, no, _⟩ := closed
    exact no

theorem apply_completes {s : Linked (SeparationRound × Tree)} (settled : Settled s owed)
    {id : NodeId} (atLeaf : s.own.2.AtLeaf id) (limit : Nat) :
    (SeparationRound.apply id limit).Completes s fun _ _ => True :=
  (apply_adds settled atLeaf limit).mono fun _ _ _ => trivial

end SeparationRound

/-! ### Sessions -/

namespace Session

variable {s : Session}

theorem pooledCut_completes (settled : Settled s owed) {row : RowId}
    (live : s.lp.rows.contains row = true) : (pooledCut row).Completes s fun stored s' =>
      Settled s' owed ∧ s'.lp.rows.contains stored = true := by
  obtain ⟨item, got⟩ := Registry.contains_iff_get.1 live
  unfold pooledCut
  apply Completes.of_read (a := item)
  · exact got
  · split
    · exact ⟨settled, live⟩
    · rename_i fixed
      apply (cutPool_frames.completes settled (fun _ inside => CutPool.add_reaches inside row)
        fun _ inside => CutPool.add_completes inside got (Bool.eq_false_iff.2 fixed)).bind
      intro stored s' added
      obtain ⟨settled', t, rfl, pooled, _⟩ := added
      obtain ⟨_, inside, _⟩ := cutPool_frames.enter settled'
      exact ⟨settled', CutPool.live inside pooled⟩

theorem addCut_completes (settled : Settled s owed) {row : RowId}
    (live : s.lp.rows.contains row = true) (forced : Bool) :
    (addCut row forced).Completes s fun _ _ => True := by
  unfold addCut
  apply (pooledCut_completes settled live).bind
  intro stored s' pooled
  obtain ⟨settled', live'⟩ := pooled
  obtain ⟨item, got⟩ := Registry.contains_iff_get.1 live'
  apply Completes.of_read (a := item)
  · exact got
  · rw [Completes, ensures_bind, ensures_get, ensures_run]
    exact SeparationRound.add_completes live' _ forced

theorem pooledColumn_completes (settled : Settled s owed) {column : ColumnId}
    (live : s.lp.columns.contains column = true) :
    (pooledColumn column).Completes s fun stored s' =>
      Settled s' owed ∧ s'.lp.columns.contains stored = true := by
  obtain ⟨item, got⟩ := Registry.contains_iff_get.1 live
  unfold pooledColumn
  apply Completes.of_read (a := item)
  · exact got
  · split
    · exact ⟨settled, live⟩
    · rename_i fixed
      apply (columnPool_frames.completes settled
        (fun _ inside => ColumnPool.add_reaches inside column)
        fun _ inside => ColumnPool.add_completes inside got (Bool.eq_false_iff.2 fixed)).bind
      intro stored s' added
      obtain ⟨settled', t, rfl, pooled, _⟩ := added
      obtain ⟨_, inside, _⟩ := columnPool_frames.enter settled'
      exact ⟨settled', ColumnPool.live inside pooled⟩

theorem addPricedColumn_completes (settled : Settled s owed) {column : ColumnId}
    (live : s.lp.columns.contains column = true) (reducedCost : Float) (forced : Bool) :
    (addPricedColumn column reducedCost forced).Completes s fun _ _ => True := by
  unfold addPricedColumn
  apply (pooledColumn_completes settled live).bind
  intro stored s' pooled
  exact ensures_run.2 (PricingRound.add_completes pooled.2 reducedCost forced)

theorem separationRound_completes (settled : Settled s owed) (dated : s.Dated) {id : NodeId}
    (atLeaf : s.tree.AtLeaf id) : (separationRound id).Completes s fun _ _ => True := by
  unfold separationRound
  apply (separation_frames.completes settled (fun _ inside => CutPool.separate_reaches inside)
    fun _ inside => CutPool.separate_completes inside dated.cutPool).bind
  intro finding s' scanned
  obtain ⟨settled', t, rfl, _⟩ := scanned
  rw [Completes, ensures_bind, ensures_get]
  split
  · exact trivial
  · apply (application_frames.completes settled'
      (fun _ inside => SeparationRound.apply_reaches inside id _)
      fun _ inside => SeparationRound.apply_completes inside atLeaf _).bind
    intro _ _ _
    exact trivial

theorem pricingRound_completes (settled : Settled s owed) (dated : s.Dated) (mode : PricingMode) :
    (pricingRound mode).Completes s fun _ _ => True := by
  unfold pricingRound
  apply (pricing_frames.completes settled (fun _ inside => ColumnPool.price_reaches inside mode)
    fun _ inside => ColumnPool.price_completes inside dated.columnPool mode).bind
  intro finding s' priced
  obtain ⟨settled', t, rfl, _⟩ := priced
  obtain ⟨_, inside, _⟩ := columns_frames.enter settled'
  rw [Completes, ensures_bind, ensures_get, ensures_bind, ensures_run]
  apply (PricingRound.selectBest_closes inside _).mono
  intro _ _ _
  exact trivial

end Session

variable {ι : Type} [DecidableEq ι] [Inhabited ι] [Fintype ι] {rule : Rule ι} {w : World ι}

/-- As long as the client releases only its own uses, no round is refused: any live row or column
can be handed in, and a separation round at a focus that is a leaf and a pricing round end with a
result. -/
theorem rounds_succeed (reached : Reachable rule w) :
    (∀ row forced, w.lp.rows.contains row = true →
      (Session.addCut row forced w.session).result = .ok ()) ∧
    (∀ column reducedCost forced, w.lp.columns.contains column = true →
      (Session.addPricedColumn column reducedCost forced w.session).result = .ok ()) ∧
    (∀ id node, w.session.tree.focus = some id → w.session.tree.getLeaf id = .ok node →
      ∃ count, (Session.separationRound id w.session).result = .ok count) ∧
    ∀ mode, ∃ result, (Session.pricingRound mode w.session).result = .ok result := by
  obtain ⟨_, settled, _⟩ := reached.session
  have dated := reached.dated.session
  refine ⟨fun row forced live => ?_, fun column reducedCost forced live => ?_,
    fun id node focus leaf => ?_, fun mode => ?_⟩
  · obtain ⟨_, ended, _⟩ := ensures_never (Session.addCut_completes settled live forced)
    exact ended
  · obtain ⟨_, ended, _⟩ :=
      ensures_never (Session.addPricedColumn_completes settled live reducedCost forced)
    exact ended
  · obtain ⟨count, ended, _⟩ :=
      ensures_never (Session.separationRound_completes settled dated ⟨focus, node, leaf⟩)
    exact ⟨count, ended⟩
  · obtain ⟨result, ended, _⟩ := ensures_never (Session.pricingRound_completes settled dated mode)
    exact ⟨result, ended⟩

/-- A column is handed in beside a root with a pooled cut that is violated. -/
def offeringColumn : List (Call Unit) :=
  [.client (.createColumn ⟨"a", 0, 0, 1, ⟨2, [(0, 1)]⟩, false⟩),
    .session (.addPricedColumn ⟨0, 0⟩ (-1) false)]

/-- A root with something to do for rounds of either kind. -/
def World.busy : World Unit :=
  World.initial.after (rooting ++ pooling ++ offeringColumn)

theorem rounds_succeed_busy : Reachable (fun _ _ => True) World.busy ∧
    (Session.addCut ⟨1, 0⟩ true World.busy.session).result = .ok () ∧
    (Session.addPricedColumn ⟨0, 0⟩ (-2) true World.busy.session).result = .ok () ∧
    (∃ count, (Session.separationRound ⟨0, 0⟩ World.busy.session).result = .ok count) ∧
    ∃ result, (Session.pricingRound .reducedCost World.busy.session).result = .ok result := by
  have plays : Plays (fun _ _ => True) World.initial (rooting ++ pooling ++ offeringColumn) := by
    decide +kernel
  have reached : Reachable (fun _ _ => True) World.busy := plays.reachable
  have row : World.busy.lp.rows.contains ⟨1, 0⟩ = true := by
    decide +kernel
  have column : World.busy.lp.columns.contains ⟨0, 0⟩ = true := by
    decide +kernel
  have focus : World.busy.session.tree.focus = some ⟨0, 0⟩ := by
    decide +kernel
  have leaf : ∃ node, World.busy.session.tree.getLeaf ⟨0, 0⟩ = .ok node := ⟨_, rfl⟩
  obtain ⟨node, leaf⟩ := leaf
  obtain ⟨cuts, columns, separates, prices⟩ := rounds_succeed reached
  exact ⟨reached, cuts _ _ row, columns _ _ _ column, separates _ node focus leaf, prices _⟩

end BranchCutPrice
