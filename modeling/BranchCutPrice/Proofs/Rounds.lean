import BranchCutPrice.Proofs.Ledger
import BranchCutPrice.Proofs.Pools
import BranchCutPrice.Proofs.Ranking
import BranchCutPrice.Pricing.ColumnPool
import BranchCutPrice.Separation.CutPool

/-!
Pools and rounds beside a relaxation. A pool holds the objects of its entries, a
separation round its cuts, a pricing round its columns; their operations keep the state
settled, refused or not.
-/

namespace BranchCutPrice

/-! ### What is held -/

instance : Holder (Pool .row Row) where
  holdings pool := .ofRows pool.handles

instance : Holder (Pool .column Column) where
  holdings pool := .ofColumns pool.handles

instance : Holder CutPool where
  holdings cutPool := .ofRows cutPool.pool.handles

instance : Holder ColumnPool where
  holdings columnPool := .ofColumns columnPool.pool.handles

/-- The rows of the stored cuts. -/
def SeparationRound.rows (round : SeparationRound) : List RowId :=
  round.cuts.map StoredCut.row

instance : Holder SeparationRound where
  holdings round := .ofRows round.rows

/-- The stored columns. -/
def PricingRound.columns (round : PricingRound) : List ColumnId :=
  round.stored.map PricedColumn.column

instance : Holder PricingRound where
  holdings round := .ofColumns round.columns

open BranchCutPrice.Action Relaxation

variable {owed : Holdings}

/-! ### Pools -/

/-- A pool of rows with the registered rows. -/
def rowStock : Part (Linked (Pool .row Row)) (Stock .row Row) where
  get s := ⟨s.own, s.lp.rows⟩
  set s stock := ⟨stock.pool, { s.lp with rows := stock.registry }⟩

/-- A pool of columns with the registered columns. -/
def columnStock : Part (Linked (Pool .column Column)) (Stock .column Column) where
  get s := ⟨s.own, s.lp.columns⟩
  set s stock := ⟨stock.pool, { s.lp with columns := stock.registry }⟩

theorem rowStock_balanced {s : Linked (Pool .row Row)} (settled : Settled s owed) :
    (rowStock.get s).Balanced (owed.rows + s.lp.loadedRows) := by
  have rows : s.lp.rows.Balanced ((owed + Holder.holdings s.own).rows + s.lp.loadedRows) :=
    Balanced.rows settled
  rwa [Holdings.rows_add, add_right_comm] at rows

theorem columnStock_balanced {s : Linked (Pool .column Column)} (settled : Settled s owed) :
    (columnStock.get s).Balanced (owed.columns + s.lp.loadedColumns) := by
  have columns :
      s.lp.columns.Balanced ((owed + Holder.holdings s.own).columns + s.lp.loadedColumns) :=
    Balanced.columns settled
  rwa [Holdings.columns_add, add_right_comm] at columns

theorem rowStock_reaches {s : Linked (Pool .row Row)} (settled : Settled s owed) {α : Type}
    {act : Action (Stock .row Row) α}
    (keeps : ∀ rows, (rowStock.get s).Balanced rows →
      act.Reaches (rowStock.get s) fun stock => stock.Balanced rows) :
    (rowStock.run act).Reaches s fun s' => Settled s' owed ∧ Still s.lp s'.lp := by
  have balanced : s.lp.Balanced (owed + Holder.holdings s.own) := settled
  apply ensures_run.2
  refine (keeps _ (rowStock_balanced settled)).imp (fun _ stock' kept => ?_)
    fun _ stock' kept => ?_
  all_goals
    refine ⟨balanced.withRows ?_ rfl rfl, rfl, rfl⟩
    rw [Holdings.rows_add, add_right_comm]
    exact kept

theorem columnStock_reaches {s : Linked (Pool .column Column)} (settled : Settled s owed)
    {α : Type} {act : Action (Stock .column Column) α}
    (keeps : ∀ columns, (columnStock.get s).Balanced columns →
      act.Reaches (columnStock.get s) fun stock => stock.Balanced columns) :
    (columnStock.run act).Reaches s fun s' => Settled s' owed ∧ Still s.lp s'.lp := by
  have balanced : s.lp.Balanced (owed + Holder.holdings s.own) := settled
  apply ensures_run.2
  refine (keeps _ (columnStock_balanced settled)).imp (fun _ stock' kept => ?_)
    fun _ stock' kept => ?_
  all_goals
    refine ⟨balanced.withColumns ?_ rfl rfl, rfl, rfl⟩
    rw [Holdings.columns_add, add_right_comm]
    exact kept

namespace CutPool

/-- A pool of cuts is a pool of rows. -/
theorem stockPart_reaches {s : Linked CutPool} (settled : Settled s owed) {α : Type}
    {act : Action (Stock .row Row) α}
    (keeps : ∀ rows, (stockPart.get s).Balanced rows →
      act.Reaches (stockPart.get s) fun stock => stock.Balanced rows) :
    (stockPart.run act).Reaches s fun s' => Settled s' owed ∧ Still s.lp s'.lp := by
  have settled' : Settled (⟨s.own.pool, s.lp⟩ : Linked (Pool .row Row)) owed := settled
  exact rowStock_reaches settled' keeps

variable {s : Linked CutPool}

theorem add_reaches (settled : Settled s owed) (row : RowId) :
    (add row).Reaches s fun s' => Settled s' owed ∧ Still s.lp s'.lp := by
  unfold Reaches add
  rw [ensures_bind]
  refine (stockPart_reaches settled fun _ balanced => Stock.addIfNew_reaches balanced row).imp
    (fun stored s' done => ?_) (fun _ _ kept => kept)
  rw [ensures_bind, ensures_emitIf]
  exact done

theorem addNew_reaches (settled : Settled s owed) (row : RowId) :
    (addNew row).Reaches s fun s' => Settled s' owed ∧ Still s.lp s'.lp :=
  stockPart_reaches settled fun _ balanced => Stock.add_reaches balanced row

theorem remove_reaches (settled : Settled s owed) (row : RowId) :
    (remove row).Reaches s fun s' => Settled s' owed ∧ Still s.lp s'.lp :=
  stockPart_reaches settled fun _ balanced => Stock.remove_reaches balanced row

theorem scan_reaches (settled : Settled s owed) :
    scan.Reaches s fun s' => Settled s' owed ∧ Still s.lp s'.lp := by
  unfold Reaches scan
  rw [ensures_bind, ensures_get]
  exact stockPart_reaches settled fun _ balanced => Stock.scan_reaches balanced _ _

theorem clear_reaches (settled : Settled s owed) :
    clear.Reaches s fun s' => Settled s' owed ∧ Still s.lp s'.lp :=
  stockPart_reaches settled fun _ balanced =>
    Completes.reaches (Stock.clear_reaches balanced) fun _ _ done => done.1

end CutPool

namespace ColumnPool

/-- A pool of priced columns is a pool of columns. -/
theorem stockPart_reaches {s : Linked ColumnPool} (settled : Settled s owed) {α : Type}
    {act : Action (Stock .column Column) α}
    (keeps : ∀ columns, (stockPart.get s).Balanced columns →
      act.Reaches (stockPart.get s) fun stock => stock.Balanced columns) :
    (stockPart.run act).Reaches s fun s' => Settled s' owed ∧ Still s.lp s'.lp := by
  have settled' : Settled (⟨s.own.pool, s.lp⟩ : Linked (Pool .column Column)) owed := settled
  exact columnStock_reaches settled' keeps

variable {s : Linked ColumnPool}

theorem add_reaches (settled : Settled s owed) (column : ColumnId) :
    (add column).Reaches s fun s' => Settled s' owed ∧ Still s.lp s'.lp :=
  stockPart_reaches settled fun _ balanced => Stock.addIfNew_reaches balanced column

theorem addNew_reaches (settled : Settled s owed) (column : ColumnId) :
    (addNew column).Reaches s fun s' => Settled s' owed ∧ Still s.lp s'.lp :=
  stockPart_reaches settled fun _ balanced => Stock.add_reaches balanced column

theorem remove_reaches (settled : Settled s owed) (column : ColumnId) :
    (remove column).Reaches s fun s' => Settled s' owed ∧ Still s.lp s'.lp :=
  stockPart_reaches settled fun _ balanced => Stock.remove_reaches balanced column

theorem scan_reaches (settled : Settled s owed) (mode : PricingMode) :
    (scan mode).Reaches s fun s' => Settled s' owed ∧ Still s.lp s'.lp := by
  unfold Reaches scan
  rw [ensures_bind, ensures_get]
  exact stockPart_reaches settled fun _ balanced => Stock.scan_reaches balanced _ _

theorem clear_reaches (settled : Settled s owed) :
    clear.Reaches s fun s' => Settled s' owed ∧ Still s.lp s'.lp :=
  stockPart_reaches settled fun _ balanced =>
    Completes.reaches (Stock.clear_reaches balanced) fun _ _ done => done.1

end ColumnPool

/-! ### Separation rounds -/

namespace SeparationRound

theorem rows_force (round : SeparationRound) (row : RowId) :
    (round.force row).rows = round.rows := by
  unfold rows force
  rw [List.map_map]
  apply List.map_congr_left
  intro cut _
  dsimp only [Function.comp_apply]
  split <;> rfl

theorem rows_push (round : SeparationRound) (cut : StoredCut) :
    (round.push cut).rows = round.rows ++ [cut.row] := by
  simp [rows, push]

variable {s : Linked SeparationRound}

theorem add_reaches (settled : Settled s owed) (row : RowId) (efficacy : RawDouble)
    (forced : Bool) :
    (add row efficacy forced).Reaches s fun s' => Settled s' owed ∧ Still s.lp s'.lp := by
  unfold Reaches add
  rw [ensures_bind, ensures_get]
  cases s.own.cuts.find? (·.row == row) with
  | some stored =>
    dsimp only
    split
    · rw [ensures_onOwn, ensures_modify]
      have same : Holder.holdings (s.own.force row) = Holder.holdings s.own :=
        congrArg (fun rows : List RowId => Holdings.ofRows rows) (rows_force s.own row)
      exact ⟨settled.congr same, .rfl⟩
    · exact ⟨settled, .rfl⟩
  | none =>
    dsimp only
    rw [ensures_bind, ensures_onLp]
    refine (captureRow_ensures settled row).imp (fun _ lp' captured => ?_) fun _ lp' same => ?_
    · rw [ensures_onOwn, ensures_modify]
      refine ⟨?_, captured.2⟩
      change lp'.Balanced (owed + .ofRows (s.own.push ⟨row, efficacy, forced⟩).rows)
      rw [rows_push, ← Multiset.coe_add, Holdings.ofRows_add, ← add_assoc]
      exact captured.1
    · subst same
      exact ⟨settled, .rfl⟩

theorem clear_ensures (settled : Settled s owed) :
    clear.Ensures s (fun _ s' => Settled s' owed ∧ s'.own = empty ∧ Still s.lp s'.lp)
      (fun _ _ => False) := by
  unfold clear
  rw [ensures_bind, ensures_get, ensures_bind, ensures_onOwn, ensures_modify, ensures_onLp]
  refine (releaseRows_ensures s.own.rows settled).imp (fun _ lp' released => ?_) (fun _ _ no => no)
  refine ⟨?_, rfl, released.2⟩
  change lp'.Balanced (owed + 0)
  rw [add_zero]
  exact released.1

end SeparationRound

/-- Hands what a scan of the pool finds to the round. -/
theorem CutPool.separate_reaches {s : Linked (CutPool × SeparationRound)}
    (settled : Settled s owed) :
    CutPool.separate.Reaches s fun s' => Settled s' owed ∧ Still s.lp s'.lp := by
  unfold Reaches separate onLeft
  rw [ensures_bind]
  refine (onLeft_frames.ensures settled fun _ left => scan_reaches left).imp
    (fun survey s' scanned => ?_) (fun _ s' scanned => ?_)
  all_goals obtain ⟨settled', t, rfl, still⟩ := scanned
  · rw [ensures_bind]
    let before (_ : List (RowId × Float)) (s' : Linked (CutPool × SeparationRound)) : Prop :=
      Settled s' owed ∧ Still s.lp s'.lp
    refine (ensures_forM before (fun cut rest s' reached => ?_) survey.useful
      ⟨settled', still⟩).imp (fun _ _ done => done) (fun _ _ kept => kept)
    unfold onRight
    refine (onRight_frames.ensures reached.1 fun _ right =>
      SeparationRound.add_reaches right cut.1 (.ofFloat cut.2) false).imp (fun _ s'' added => ?_)
      (fun _ s'' added => ?_)
    all_goals
      obtain ⟨settled'', t, rfl, still'⟩ := added
      exact ⟨settled'', reached.2.trans still'⟩
  · exact ⟨settled', still⟩

/-! ### Pricing rounds -/

namespace PricingRound

theorem contains_iff {round : PricingRound} {column : ColumnId} :
    round.contains column = true ↔ column ∈ round.columns := by
  unfold contains columns
  simp [List.any_eq_true, List.mem_map]

theorem forced_stored {round : PricingRound} {priced : PricedColumn}
    (member : priced ∈ round.forced) : priced.column ∈ round.columns :=
  List.mem_map_of_mem (List.mem_append_left _ (List.mem_append_left _ member))

theorem waiting_stored {round : PricingRound} {priced : PricedColumn}
    (member : priced ∈ round.waiting) : priced.column ∈ round.columns :=
  List.mem_map_of_mem (List.mem_append_left _ (List.mem_append_right _ member))

theorem selected_stored {round : PricingRound} {priced : PricedColumn}
    (member : priced ∈ round.selected) : priced.column ∈ round.columns :=
  List.mem_map_of_mem (List.mem_append_right _ member)

theorem columns_place (round : PricingRound) (priced : PricedColumn) (forced : Bool) :
    ((round.place priced forced).columns : Multiset ColumnId) =
      priced.column ::ₘ (round.columns : Multiset ColumnId) := by
  rw [Multiset.cons_coe]
  unfold columns
  rw [← List.map_cons]
  refine Multiset.coe_eq_coe.2 (List.Perm.map _ ?_)
  unfold place stored
  cases forced with
  | true =>
    simp only [if_true, List.append_assoc, List.singleton_append]
    exact List.perm_middle
  | false =>
    simp only [Bool.false_eq_true, if_false, List.append_assoc]
    have placed := Ranking.insertAt_perm round.waiting
      (Ranking.partitionPoint (fun other => priced.score ≤ other.score) round.waiting) priced
    exact ((placed.append_right round.selected).append_left round.forced).trans List.perm_middle

theorem besideAll_columns (settings : PricingSettings) (registry : Registry .column Column)
    (admitted : Column) (waiting : List PricedColumn) :
    (besideAll settings registry admitted waiting).2.map PricedColumn.column =
      waiting.map PricedColumn.column := by
  induction waiting with
  | nil => rfl
  | cons priced rest ih =>
    unfold besideAll
    cases registry.get priced.column with
    | error e => rfl
    | ok column =>
      dsimp only
      rw [List.map_cons, List.map_cons, ih]
      rfl

/-- Waiting columns may be rescored and reordered. -/
theorem columns_waiting (round : PricingRound) {waiting : List PricedColumn}
    (same : (waiting.map PricedColumn.column).Perm (round.waiting.map PricedColumn.column)) :
    (({ round with waiting := waiting } : PricingRound).columns : Multiset ColumnId) =
      round.columns := by
  refine Multiset.coe_eq_coe.2 ?_
  unfold columns stored
  simp only [List.map_append]
  exact (same.append_left _).append_right _

theorem columns_rest (round : PricingRound) {best : PricedColumn} {rest : List PricedColumn}
    (waiting : round.waiting = best :: rest) :
    (({ round with waiting := rest } : PricingRound).columns : Multiset ColumnId) +
      {best.column} = round.columns := by
  rw [add_comm, Multiset.singleton_add, Multiset.cons_coe]
  refine Multiset.coe_eq_coe.2 ?_
  unfold columns stored
  rw [waiting]
  simp only [List.map_append, List.map_cons, List.append_assoc, List.cons_append]
  exact List.perm_middle.symm

theorem columns_selected (round : PricingRound) (best : PricedColumn) :
    (({ round with selected := round.selected ++ [best] } : PricingRound).columns :
      Multiset ColumnId) = round.columns + {best.column} := by
  rw [add_comm, Multiset.singleton_add, Multiset.cons_coe]
  refine Multiset.coe_eq_coe.2 ?_
  unfold columns stored
  simp only [← List.append_assoc, List.map_append, List.map_cons, List.map_nil]
  exact List.perm_append_singleton _ _

variable {s : Linked PricingRound}

theorem add_reaches (settled : Settled s owed) (column : ColumnId) (reducedCost : Float)
    (forced : Bool) :
    (add column reducedCost forced).Reaches s fun s' => Settled s' owed ∧ Still s.lp s'.lp := by
  unfold Reaches add
  rw [ensures_bind, ensures_get]
  split
  · exact ⟨settled, .rfl⟩
  · rw [ensures_bind]
    refine ensures_read.2 ⟨fun object _ => ?_, fun _ _ => ⟨settled, .rfl⟩⟩
    rw [ensures_bind, ensures_onLp]
    refine (captureColumn_ensures settled column).imp (fun _ lp' captured => ?_)
      fun _ lp' same => ?_
    · rw [ensures_onOwn, ensures_modify]
      refine ⟨?_, captured.2⟩
      have placed := columns_place s.own (.ofColumn s.own.settings column object reducedCost) forced
      rw [← Multiset.singleton_add, add_comm] at placed
      change lp'.Balanced (owed + .ofColumns (s.own.place _ forced).columns)
      rw [placed, Holdings.ofColumns_add, ← add_assoc]
      exact captured.1
    · subst same
      exact ⟨settled, .rfl⟩

theorem clear_ensures (settled : Settled s owed) :
    clear.Ensures s
      (fun _ s' => Settled s' owed ∧ s'.own = empty s.own.settings ∧ Still s.lp s'.lp)
      (fun _ _ => False) := by
  unfold clear
  rw [ensures_bind, ensures_get, ensures_bind, ensures_onOwn, ensures_modify, ensures_onLp]
  refine (releaseColumns_ensures s.own.columns settled).imp (fun _ lp' released => ?_)
    (fun _ _ no => no)
  refine ⟨?_, rfl, released.2⟩
  change lp'.Balanced (owed + 0)
  rw [add_zero]
  exact released.1

end PricingRound

/-- Hands what a scan of the pool finds to the round. -/
theorem ColumnPool.price_reaches {s : Linked (ColumnPool × PricingRound)}
    (settled : Settled s owed) (mode : PricingMode) :
    (ColumnPool.price mode).Reaches s fun s' => Settled s' owed ∧ Still s.lp s'.lp := by
  unfold Reaches price onLeft
  rw [ensures_bind]
  refine (onLeft_frames.ensures settled fun _ left => scan_reaches left mode).imp
    (fun survey s' scanned => ?_) (fun _ s' scanned => ?_)
  all_goals obtain ⟨settled', t, rfl, still⟩ := scanned
  · rw [ensures_bind]
    let before (_ : List (ColumnId × Float)) (s' : Linked (ColumnPool × PricingRound)) : Prop :=
      Settled s' owed ∧ Still s.lp s'.lp
    refine (ensures_forM before (fun found rest s' reached => ?_) survey.useful
      ⟨settled', still⟩).imp (fun _ _ done => done) (fun _ _ kept => kept)
    unfold onRight
    refine (onRight_frames.ensures reached.1 fun _ right =>
      PricingRound.add_reaches right found.1 found.2 _).imp (fun _ s'' added => ?_)
      (fun _ s'' added => ?_)
    all_goals
      obtain ⟨settled'', t, rfl, still'⟩ := added
      exact ⟨settled'', reached.2.trans still'⟩
  · exact ⟨settled', still⟩

end BranchCutPrice
