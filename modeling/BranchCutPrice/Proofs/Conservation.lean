import BranchCutPrice.Proofs.Runs
import Mathlib.Algebra.BigOperators.Group.List.Basic
import Mathlib.Algebra.Order.BigOperators.Group.Finset

/-!
Conservation of users. As long as no search is started twice, every registered row and
basis has exactly the users that can be pointed out: the client, the list of loaded rows, the
nodes, the pools and the rounds.
-/

namespace BranchCutPrice

open Relaxation

/-! ### Counting -/

def Holdings.countRow (row : RowId) : Holdings →+ Nat where
  toFun holdings := holdings.rows.count row
  map_zero' := rfl
  map_add' _ _ := Multiset.count_add _ _ _

def Holdings.countBasis (basis : BasisId) : Holdings →+ Nat where
  toFun holdings := holdings.bases.count basis
  map_zero' := rfl
  map_add' _ _ := Multiset.count_add _ _ _

/-- The number of times that a row occurs in the lists of the nodes. -/
def Tree.rowUses (tree : Tree) (row : RowId) : Nat :=
  (tree.nodes.entries.map fun entry => entry.2.payload.rows.count row).sum

/-- The number of leaves that start from a basis. -/
def Tree.basisUses (tree : Tree) (basis : BasisId) : Nat :=
  tree.nodes.entries.countP fun entry => entry.2.payload.basis? = some basis

/-- The number of entries for a row. -/
def Pool.rowUses (pool : Pool .row Row) (row : RowId) : Nat :=
  pool.entries.toList.countP (·.handle = row)

/-- The number of stored cuts that are a row. -/
def SeparationRound.rowUses (round : SeparationRound) (row : RowId) : Nat :=
  round.cuts.countP (·.row = row)

theorem Tree.countRow_holdings (tree : Tree) (row : RowId) :
    Holdings.countRow row (Holder.holdings tree) = tree.rowUses row := by
  change Holdings.countRow row (nodeHoldings tree.nodes) = _
  unfold nodeHoldings rowUses
  rw [SlotTable.total_eq_entries, map_list_sum, List.map_map]
  congr 2
  funext entry
  change (entry.2.payload.rows + 0 : Multiset RowId).count row = _
  rw [add_zero, Multiset.coe_count]

theorem Tree.countBasis_holdings (tree : Tree) (basis : BasisId) :
    Holdings.countBasis basis (Holder.holdings tree) = tree.basisUses basis := by
  change Holdings.countBasis basis (nodeHoldings tree.nodes) = _
  unfold nodeHoldings basisUses
  rw [SlotTable.total_eq_entries, map_list_sum, List.map_map]
  induction tree.nodes.entries with
  | nil => rfl
  | cons entry rest ih =>
    rw [List.map_cons, List.sum_cons, ih, List.countP_cons, add_comm]
    congr 1
    change (0 + (entry.2.payload.basis?.toList : List BasisId) : Multiset BasisId).count basis = _
    cases entry.2.payload.basis? with
    | none => simp
    | some other =>
      by_cases same : basis = other
      · simp [same]
      · simp [same, Ne.symm same]

theorem Pool.countRow_holdings (pool : Pool .row Row) (row : RowId) :
    Holdings.countRow row (Holder.holdings pool) = pool.rowUses row := by
  change (pool.entries.toList.map PoolEntry.handle : Multiset RowId).count row = _
  unfold rowUses
  rw [Multiset.coe_count, List.count, List.countP_map]
  congr 1

theorem CutPool.countRow_holdings (pool : CutPool) (row : RowId) :
    Holdings.countRow row (Holder.holdings pool) = pool.pool.rowUses row :=
  pool.pool.countRow_holdings row

theorem SeparationRound.countRow_holdings (round : SeparationRound) (row : RowId) :
    Holdings.countRow row (Holder.holdings round) = round.rowUses row := by
  change (round.cuts.map StoredCut.row : Multiset RowId).count row = _
  unfold rowUses
  rw [Multiset.coe_count, List.count, List.countP_map]
  congr 1

theorem Registry.uses_live {kind : Kind} {α : Type} {registry : Registry kind α}
    {handle : Handle kind} (live : registry.contains handle = true) :
    registry.uses handle = .ok (registry.users handle) := by
  obtain ⟨object, found⟩ := SlotTable.contains_iff.1 live
  rw [users_of_found found]
  unfold uses shared
  rw [found]
  rfl

theorem Registry.Balanced.live_iff {kind : Kind} {α : Type} {registry : Registry kind α}
    {owed : Multiset (Handle kind)} (balanced : registry.Balanced owed) {handle : Handle kind} :
    registry.contains handle = true ↔ handle ∈ owed := by
  constructor
  · intro live
    obtain ⟨object, found⟩ := SlotTable.contains_iff.1 live
    have used := balanced.used handle object found
    rw [← users_of_found found, balanced.count handle] at used
    exact Multiset.count_pos.1 used
  · exact balanced.live

/-! ### All that is held -/

variable {ι : Type} [Fintype ι]

namespace World

/-- The users of a row that can be pointed out, apart from the loaded rows. -/
def rowUses (w : World ι) (row : RowId) : Nat :=
  w.client.rows.count row + ∑ p, (w.trees p).rowUses row + ∑ p, (w.rowPools p).rowUses row +
    ∑ p, (w.cutPools p).pool.rowUses row + ∑ p, (w.cutRounds p).rowUses row

def basisUses (w : World ι) (basis : BasisId) : Nat :=
  w.client.bases.count basis + ∑ p, (w.trees p).basisUses basis

theorem countRow_held (w : World ι) (row : RowId) :
    Holdings.countRow row (Ledger.held w) = w.rowUses row := by
  change Holdings.countRow row (w.client + ∑ p, Holder.holdings (w.trees p) +
    ∑ p, Holder.holdings (w.rowPools p) + ∑ p, Holder.holdings (w.cutPools p) +
    ∑ p, Holder.holdings (w.cutRounds p) + Holder.holdings w.columnPool +
    Holder.holdings w.columns) = _
  simp only [map_add, map_sum, Tree.countRow_holdings, Pool.countRow_holdings,
    CutPool.countRow_holdings, SeparationRound.countRow_holdings]
  rfl

theorem countBasis_held (w : World ι) (basis : BasisId) :
    Holdings.countBasis basis (Ledger.held w) = w.basisUses basis := by
  change Holdings.countBasis basis (w.client + ∑ p, Holder.holdings (w.trees p) +
    ∑ p, Holder.holdings (w.rowPools p) + ∑ p, Holder.holdings (w.cutPools p) +
    ∑ p, Holder.holdings (w.cutRounds p) + Holder.holdings w.columnPool +
    Holder.holdings w.columns) = _
  have rowPools : ∑ p, Holdings.countBasis basis (Holder.holdings (w.rowPools p)) = 0 :=
    Finset.sum_eq_zero fun _ _ => rfl
  have cutPools : ∑ p, Holdings.countBasis basis (Holder.holdings (w.cutPools p)) = 0 :=
    Finset.sum_eq_zero fun _ _ => rfl
  have cutRounds : ∑ p, Holdings.countBasis basis (Holder.holdings (w.cutRounds p)) = 0 :=
    Finset.sum_eq_zero fun _ _ => rfl
  simp only [map_add, map_sum, Tree.countBasis_holdings, rowPools, cutPools, cutRounds]
  rfl

private theorem le_sum (f : ι → Nat) (p : ι) : f p ≤ ∑ q, f q :=
  Finset.single_le_sum (fun _ _ => Nat.zero_le _) (Finset.mem_univ p)

/-- Wherever there is a user, it is one of all. -/
theorem rowUses_at (w : World ι) (row : RowId) (p : ι) :
    (w.trees p).rowUses row ≤ w.rowUses row ∧ (w.rowPools p).rowUses row ≤ w.rowUses row ∧
      (w.cutPools p).pool.rowUses row ≤ w.rowUses row ∧
      (w.cutRounds p).rowUses row ≤ w.rowUses row := by
  have trees := le_sum (fun q => (w.trees q).rowUses row) p
  have rowPools := le_sum (fun q => (w.rowPools q).rowUses row) p
  have cutPools := le_sum (fun q => (w.cutPools q).pool.rowUses row) p
  have cutRounds := le_sum (fun q => (w.cutRounds q).rowUses row) p
  unfold rowUses
  omega

theorem basisUses_at (w : World ι) (basis : BasisId) (p : ι) :
    (w.trees p).basisUses basis ≤ w.basisUses basis := by
  have trees := le_sum (fun q => (w.trees q).basisUses basis) p
  unfold basisUses
  omega

/-- Nothing is loaded, and no node, pool or round is left. -/
structure Idle (w : World ι) : Prop where
  loaded : w.lp.loadedRows = []
  trees : ∀ p, (w.trees p).size = 0
  rowPools : ∀ p, (w.rowPools p).entries = #[]
  cutPools : ∀ p, (w.cutPools p).pool.entries = #[]
  cutRounds : ∀ p, (w.cutRounds p).cuts = []

/-- Every user of a registered row or basis can be pointed out, and whoever holds a row or a
basis is one of its users. -/
structure Conserved (w : World ι) : Prop where
  rows : ∀ row, w.lp.rows.contains row = true →
    w.lp.rows.uses row = .ok (w.rowUses row + if row ∈ w.lp.loadedRows then 1 else 0)
  bases : ∀ basis, w.lp.bases.contains basis = true →
    w.lp.bases.uses basis = .ok (w.basisUses basis)
  client : (∀ row ∈ w.client.rows, w.lp.rows.contains row = true) ∧
    ∀ basis ∈ w.client.bases, w.lp.bases.contains basis = true
  loaded : ∀ row ∈ w.lp.loadedRows, w.lp.rows.contains row = true
  nodes : ∀ p id node, (w.trees p).nodes.get? id = some node →
    (∀ row ∈ node.payload.rows, w.lp.rows.contains row = true) ∧
      ∀ basis, node.payload.basis? = some basis → w.lp.bases.contains basis = true
  rowPools : ∀ p, ∀ entry ∈ (w.rowPools p).entries.toList,
    w.lp.rows.contains entry.handle = true
  cutPools : ∀ p, ∀ entry ∈ (w.cutPools p).pool.entries.toList,
    w.lp.rows.contains entry.handle = true
  cutRounds : ∀ p, ∀ cut ∈ (w.cutRounds p).cuts, w.lp.rows.contains cut.row = true
  idle : w.Idle →
    (∀ row, w.lp.rows.contains row = true ↔ row ∈ w.client.rows) ∧
    (∀ row ∈ w.client.rows, w.lp.rows.uses row = .ok (w.client.rows.count row)) ∧
    (∀ basis, w.lp.bases.contains basis = true ↔ basis ∈ w.client.bases) ∧
    ∀ basis ∈ w.client.bases, w.lp.bases.uses basis = .ok (w.client.bases.count basis)

namespace Kept

variable {w : World ι} {lost : Holdings}

/-- A row is registered exactly as long as there is a user of it. -/
theorem row_live_iff (kept : w.Kept lost) (rows : lost.rows = 0) (row : RowId) :
    w.lp.rows.contains row = true ↔ 0 < w.rowUses row ∨ row ∈ w.lp.loadedRows := by
  have count : (Ledger.held w).rows.count row = w.rowUses row := w.countRow_held row
  have live : w.lp.rows.contains row = true ↔
      row ∈ (lost + Ledger.held w).rows + w.lp.loadedRows := kept.settled.rows.live_iff
  rw [live, Multiset.mem_add, Multiset.mem_coe, Holdings.rows_add, rows, zero_add,
    ← Multiset.count_pos, count]

theorem basis_live_iff (kept : w.Kept lost) (bases : lost.bases = 0) (basis : BasisId) :
    w.lp.bases.contains basis = true ↔ 0 < w.basisUses basis := by
  have count : (Ledger.held w).bases.count basis = w.basisUses basis := w.countBasis_held basis
  have live : w.lp.bases.contains basis = true ↔ basis ∈ (lost + Ledger.held w).bases :=
    kept.settled.bases.live_iff
  rw [live, Holdings.bases_add, bases, zero_add, ← Multiset.count_pos, count]

theorem row_uses (kept : w.Kept lost) (rows : lost.rows = 0) {row : RowId}
    (live : w.lp.rows.contains row = true) :
    w.lp.rows.uses row = .ok (w.rowUses row + if row ∈ w.lp.loadedRows then 1 else 0) := by
  have count : (Ledger.held w).rows.count row = w.rowUses row := w.countRow_held row
  have loaded : w.lp.loadedRows.count row = if row ∈ w.lp.loadedRows then 1 else 0 :=
    List.Nodup.count kept.settled.positions.nodup
  have users : w.lp.rows.users row = ((lost + Ledger.held w).rows + w.lp.loadedRows).count row :=
    kept.settled.rows.count row
  rw [Multiset.count_add, Holdings.rows_add, rows, zero_add, count, Multiset.coe_count,
    loaded] at users
  rw [Registry.uses_live live, users]

theorem basis_uses (kept : w.Kept lost) (bases : lost.bases = 0) {basis : BasisId}
    (live : w.lp.bases.contains basis = true) :
    w.lp.bases.uses basis = .ok (w.basisUses basis) := by
  have count : (Ledger.held w).bases.count basis = w.basisUses basis := w.countBasis_held basis
  have users : w.lp.bases.users basis = (lost + Ledger.held w).bases.count basis :=
    kept.settled.bases.count basis
  rw [Holdings.bases_add, bases, zero_add, count] at users
  rw [Registry.uses_live live, users]

/-- Without nodes, pools and rounds only the client uses anything. -/
theorem uses_of_idle (kept : w.Kept lost) (idle : w.Idle) :
    (∀ row, w.rowUses row = w.client.rows.count row) ∧
      ∀ basis, w.basisUses basis = w.client.bases.count basis := by
  have entries (p : ι) : (w.trees p).nodes.entries = [] := by
    have length := SlotTable.length_handles (kept.shaped p).sound
    have none : (w.trees p).nodes.live = 0 := idle.trees p
    change (w.trees p).nodes.handles.length = (w.trees p).nodes.live at length
    rw [none, SlotTable.handles, List.length_map] at length
    exact List.eq_nil_of_length_eq_zero length
  constructor
  · intro row
    simp [rowUses, Tree.rowUses, Pool.rowUses, SeparationRound.rowUses, entries, idle.rowPools,
      idle.cutPools, idle.cutRounds]
  · intro basis
    simp [basisUses, Tree.basisUses, entries]

theorem conserved (kept : w.Kept lost) (rows : lost.rows = 0) (bases : lost.bases = 0) :
    w.Conserved where
  rows row live := kept.row_uses rows live
  bases basis live := kept.basis_uses bases live
  client := by
    constructor
    · intro row member
      apply (kept.row_live_iff rows row).2
      left
      have count := Multiset.count_pos.2 member
      unfold rowUses
      omega
    · intro basis member
      apply (kept.basis_live_iff bases basis).2
      have count := Multiset.count_pos.2 member
      unfold basisUses
      omega
  loaded row member := (kept.row_live_iff rows row).2 (.inr member)
  nodes p id node found := by
    constructor
    · intro row member
      have held := Multiset.count_pos.2 (mem_nodeHoldings_rows found member)
      have count : (nodeHoldings (w.trees p).nodes).rows.count row = (w.trees p).rowUses row :=
        (w.trees p).countRow_holdings row
      have part := (w.rowUses_at row p).1
      exact (kept.row_live_iff rows row).2 (.inl (by omega))
    · intro basis warm
      have held := Multiset.count_pos.2 (mem_nodeHoldings_bases found warm)
      have count : (nodeHoldings (w.trees p).nodes).bases.count basis =
          (w.trees p).basisUses basis := (w.trees p).countBasis_holdings basis
      have part := w.basisUses_at basis p
      exact (kept.basis_live_iff bases basis).2 (by omega)
  rowPools p entry member := by
    have used : 0 < (w.rowPools p).rowUses entry.handle :=
      List.countP_pos_iff.2 ⟨entry, member, decide_eq_true rfl⟩
    have part := (w.rowUses_at entry.handle p).2.1
    exact (kept.row_live_iff rows _).2 (.inl (by omega))
  cutPools p entry member := by
    have used : 0 < (w.cutPools p).pool.rowUses entry.handle :=
      List.countP_pos_iff.2 ⟨entry, member, decide_eq_true rfl⟩
    have part := (w.rowUses_at entry.handle p).2.2.1
    exact (kept.row_live_iff rows _).2 (.inl (by omega))
  cutRounds p cut member := by
    have used : 0 < (w.cutRounds p).rowUses cut.row :=
      List.countP_pos_iff.2 ⟨cut, member, decide_eq_true rfl⟩
    have part := (w.rowUses_at cut.row p).2.2.2
    exact (kept.row_live_iff rows _).2 (.inl (by omega))
  idle idle := by
    obtain ⟨rowUses, basisUses⟩ := kept.uses_of_idle idle
    have row (row : RowId) : w.lp.rows.contains row = true ↔ row ∈ w.client.rows := by
      rw [kept.row_live_iff rows, rowUses, Multiset.count_pos, idle.loaded]
      simp
    have basis (basis : BasisId) : w.lp.bases.contains basis = true ↔ basis ∈ w.client.bases := by
      rw [kept.basis_live_iff bases, basisUses, Multiset.count_pos]
    refine ⟨row, fun held member => ?_, basis, fun held member => ?_⟩
    · rw [kept.row_uses rows ((row held).2 member), rowUses, idle.loaded]
      rfl
    · rw [kept.basis_uses bases ((basis held).2 member), basisUses]

end Kept

end World

/-- Whatever is done in whatever order, no capture is lost or doubled, and none is left
behind: each registered row and basis has exactly the users that can be pointed out. -/
theorem uses_conserved [DecidableEq ι] [Inhabited ι] {w : World ι}
    (reached : Reachable (fun w call => call.Timely w) w) : w.Conserved := by
  obtain ⟨lost, kept, bases, rows⟩ := reached.kept
  exact kept.conserved (rows fun _ _ timely => timely) bases

theorem uses_conserved_branched :
    Reachable (fun w call => call.Timely w) (World.initial.after (rooting ++ branching)) ∧
      (World.initial.after (rooting ++ branching)).Conserved := by
  have plays : Plays (fun w call => call.Timely w) World.initial (rooting ++ branching) := by
    decide
  exact ⟨plays.reachable, uses_conserved plays.reachable⟩

end BranchCutPrice
