import BranchCutPrice.Proofs.Conservation
import BranchCutPrice.Proofs.Market

/-!
Conservation of users of columns. Every user of a registered column can be pointed out: the
client, the list of loaded columns, the pools and the rounds; and beside these, as many as
rounds dropped it while it was loaded.
-/

namespace BranchCutPrice

open BranchCutPrice.Action Relaxation

/-! ### Counting -/

def Holdings.countColumn (column : ColumnId) : Holdings →+ Nat where
  toFun holdings := holdings.columns.count column
  map_zero' := rfl
  map_add' _ _ := Multiset.count_add _ _ _

/-- The number of entries for a column. -/
def Pool.columnUses (pool : Pool .column Column) (column : ColumnId) : Nat :=
  pool.entries.toList.countP (·.handle = column)

/-- The number of records of a column, forced, waiting or selected. -/
def PricingRound.columnUses (round : PricingRound) (column : ColumnId) : Nat :=
  round.stored.countP (·.column = column)

theorem Pool.countColumn_holdings (pool : Pool .column Column) (column : ColumnId) :
    Holdings.countColumn column (Holder.holdings pool) = pool.columnUses column := by
  change (pool.entries.toList.map PoolEntry.handle : Multiset ColumnId).count column = _
  unfold columnUses
  rw [Multiset.coe_count, List.count, List.countP_map]
  congr 1

theorem ColumnPool.countColumn_holdings (pool : ColumnPool) (column : ColumnId) :
    Holdings.countColumn column (Holder.holdings pool) = pool.pool.columnUses column :=
  pool.pool.countColumn_holdings column

theorem PricedColumn.count_columns (listed : List PricedColumn) (column : ColumnId) :
    (listed.map PricedColumn.column).count column = listed.countP (·.column = column) := by
  rw [List.count, List.countP_map]
  congr 1

theorem PricingRound.count_columns (round : PricingRound) (column : ColumnId) :
    round.columns.count column = round.columnUses column :=
  PricedColumn.count_columns round.stored column

theorem PricingRound.countColumn_holdings (round : PricingRound) (column : ColumnId) :
    Holdings.countColumn column (Holder.holdings round) = round.columnUses column := by
  change (round.columns : Multiset ColumnId).count column = _
  rw [Multiset.coe_count, count_columns]

/-! ### The end of a round -/

/-- The end of a round takes the uses of the round back, but for the dropped columns, and adds
one for each newly loaded column. -/
theorem PricingRound.selectBest_users {s : Linked PricingRound} {owed : Holdings}
    (settled : Settled s owed) (quota : Nat) (column : ColumnId) :
    let s' := (selectBest quota s).state
    s'.lp.columns.users column + s.own.columnUses column =
      s.lp.columns.users column + (dropped quota s).count column +
        if column ∈ s'.lp.loadedColumns ∧ column ∉ s.lp.loadedColumns then 1 else 0 := by
  intro s'
  have closed : Closed (dropped quota s) owed s s' :=
    reaches_iff.1 (selectBest_reaches settled quota)
  have balanced : s.lp.Balanced (owed + .ofColumns s.own.columns) := settled
  have balanced' : s'.lp.Balanced (owed + .ofColumns (dropped quota s)) := by
    have balanced' : s'.lp.Balanced
        (owed + .ofColumns (dropped quota s) + .ofColumns s'.own.columns) := closed.settled
    unfold columns at balanced'
    rw [closed.emptied] at balanced'
    rw [← add_zero (owed + Holdings.ofColumns (dropped quota s))]
    exact balanced'
  have users : s'.lp.columns.users column + s.own.columnUses column +
      s.lp.loadedColumns.count column = s.lp.columns.users column +
        (dropped quota s).count column + s'.lp.loadedColumns.count column := by
    rw [← count_columns, ← Multiset.coe_count column s.own.columns]
    exact balanced.users_columns balanced' (add_right_comm _ _ _) column
  have fresh : s'.lp.loadedColumns.count column = s.lp.loadedColumns.count column +
      if column ∈ s'.lp.loadedColumns ∧ column ∉ s.lp.loadedColumns then 1 else 0 := by
    rw [balanced.distinct.count, balanced'.distinct.count]
    by_cases loaded : column ∈ s.lp.loadedColumns
    · simp [loaded, closed.grows loaded]
    · simp [loaded]
  omega

/-! ### All that is held -/

variable {ι : Type} [Fintype ι]

theorem World.countColumn_held (w : World ι) (column : ColumnId) :
    Holdings.countColumn column (Ledger.held w) = w.client.columns.count column +
      w.columnPool.pool.columnUses column + w.columns.columnUses column := by
  change Holdings.countColumn column (w.client + ∑ p, Holder.holdings (w.trees p) +
    ∑ p, Holder.holdings (w.rowPools p) + ∑ p, Holder.holdings (w.cutPools p) +
    ∑ p, Holder.holdings (w.cutRounds p) + Holder.holdings w.columnPool +
    Holder.holdings w.columns) = _
  have trees : ∑ p, Holdings.countColumn column (Holder.holdings (w.trees p)) = 0 := by
    apply Finset.sum_eq_zero
    intro p _
    change Holdings.countColumn column (nodeHoldings (w.trees p).nodes) = 0
    unfold nodeHoldings
    rw [SlotTable.total_eq_entries, map_list_sum, List.map_map]
    apply List.sum_eq_zero
    intro uses member
    obtain ⟨entry, _, rfl⟩ := List.mem_map.1 member
    rfl
  have rowPools : ∑ p, Holdings.countColumn column (Holder.holdings (w.rowPools p)) = 0 :=
    Finset.sum_eq_zero fun _ _ => rfl
  have cutPools : ∑ p, Holdings.countColumn column (Holder.holdings (w.cutPools p)) = 0 :=
    Finset.sum_eq_zero fun _ _ => rfl
  have cutRounds : ∑ p, Holdings.countColumn column (Holder.holdings (w.cutRounds p)) = 0 :=
    Finset.sum_eq_zero fun _ _ => rfl
  simp only [map_add, map_sum, trees, rowPools, cutPools, cutRounds,
    ColumnPool.countColumn_holdings, PricingRound.countColumn_holdings]
  rfl

namespace Market

/-- The users of a column that can be pointed out, apart from the loaded columns. -/
def columnUses (m : Market ι) (column : ColumnId) : Nat :=
  m.world.client.columns.count column + m.world.columnPool.pool.columnUses column +
    m.world.columns.columnUses column + ∑ p, (m.pools p).columnUses column +
    ∑ p, (m.columnPools p).pool.columnUses column + ∑ p, (m.rounds p).columnUses column

theorem countColumn_held (m : Market ι) (column : ColumnId) :
    Holdings.countColumn column (Ledger.held m) = m.columnUses column := by
  change Holdings.countColumn column (Ledger.held m.world + ∑ p, Holder.holdings (m.pools p) +
    ∑ p, Holder.holdings (m.columnPools p) + ∑ p, Holder.holdings (m.rounds p)) = _
  simp only [map_add, map_sum, World.countColumn_held, Pool.countColumn_holdings,
    ColumnPool.countColumn_holdings, PricingRound.countColumn_holdings]
  rfl

private theorem part_le (f : ι → Nat) (p : ι) : f p ≤ ∑ q, f q :=
  Finset.single_le_sum (fun _ _ => Nat.zero_le _) (Finset.mem_univ p)

/-- Wherever there is a user, it is one of all. -/
theorem columnUses_at (m : Market ι) (column : ColumnId) (p : ι) :
    (m.pools p).columnUses column ≤ m.columnUses column ∧
      (m.columnPools p).pool.columnUses column ≤ m.columnUses column ∧
      (m.rounds p).columnUses column ≤ m.columnUses column := by
  have pools := part_le (fun q => (m.pools q).columnUses column) p
  have columnPools := part_le (fun q => (m.columnPools q).pool.columnUses column) p
  have rounds := part_le (fun q => (m.rounds q).columnUses column) p
  unfold columnUses
  omega

/-- The users of a registered column are the ones that can be pointed out and those that
rounds left behind; and whoever holds a column is one of its users. -/
structure Accounted (m : Market ι) (stranded : Multiset ColumnId) : Prop where
  uses : ∀ column, m.world.lp.columns.contains column = true →
    m.world.lp.columns.uses column = .ok (m.columnUses column +
      (if column ∈ m.world.lp.loadedColumns then 1 else 0) + stranded.count column)
  client : ∀ column ∈ m.world.client.columns, m.world.lp.columns.contains column = true
  loaded : ∀ column ∈ m.world.lp.loadedColumns, m.world.lp.columns.contains column = true
  session : (∀ entry ∈ m.world.columnPool.pool.entries.toList,
      m.world.lp.columns.contains entry.handle = true) ∧
    ∀ priced ∈ m.world.columns.stored, m.world.lp.columns.contains priced.column = true
  pools : ∀ p, ∀ entry ∈ (m.pools p).entries.toList,
    m.world.lp.columns.contains entry.handle = true
  columnPools : ∀ p, ∀ entry ∈ (m.columnPools p).pool.entries.toList,
    m.world.lp.columns.contains entry.handle = true
  rounds : ∀ p, ∀ priced ∈ (m.rounds p).stored,
    m.world.lp.columns.contains priced.column = true
  /-- What rounds left behind is never freed. -/
  stranded : ∀ column ∈ stranded, m.world.lp.columns.contains column = true

namespace Kept

variable {m : Market ι} {lost : Holdings}

theorem column_live_iff (kept : m.Kept lost) (column : ColumnId) :
    m.world.lp.columns.contains column = true ↔ 0 < m.columnUses column ∨
      column ∈ m.world.lp.loadedColumns ∨ column ∈ lost.columns := by
  have count : (Ledger.held m).columns.count column = m.columnUses column :=
    m.countColumn_held column
  have live : m.world.lp.columns.contains column = true ↔
      column ∈ (lost + Ledger.held m).columns + m.world.lp.loadedColumns :=
    kept.settled.columns.live_iff
  rw [live, Multiset.mem_add, Multiset.mem_coe, Holdings.columns_add, Multiset.mem_add, ← count,
    Multiset.count_pos]
  tauto

theorem column_uses (kept : m.Kept lost) {column : ColumnId}
    (live : m.world.lp.columns.contains column = true) :
    m.world.lp.columns.uses column = .ok (m.columnUses column +
      (if column ∈ m.world.lp.loadedColumns then 1 else 0) + lost.columns.count column) := by
  have count : (Ledger.held m).columns.count column = m.columnUses column :=
    m.countColumn_held column
  have loaded : m.world.lp.loadedColumns.count column =
      if column ∈ m.world.lp.loadedColumns then 1 else 0 :=
    List.Nodup.count kept.settled.distinct
  have users : m.world.lp.columns.users column =
      ((lost + Ledger.held m).columns + m.world.lp.loadedColumns).count column :=
    kept.settled.columns.count column
  rw [Multiset.count_add, Holdings.columns_add, Multiset.count_add, count, Multiset.coe_count,
    loaded] at users
  rw [Registry.uses_live live, users]
  congr 1
  omega

theorem accounted (kept : m.Kept lost) : m.Accounted lost.columns := by
  have live {column : ColumnId} (used : 0 < m.columnUses column) :
      m.world.lp.columns.contains column = true :=
    (kept.column_live_iff column).2 (.inl used)
  refine ⟨fun _ => kept.column_uses, ?_, ?_, ⟨?_, ?_⟩, ?_, ?_, ?_, ?_⟩
  · intro column member
    have held := Multiset.count_pos.2 member
    apply live
    unfold columnUses
    omega
  · intro column member
    exact (kept.column_live_iff column).2 (.inr (.inl member))
  · intro entry member
    have used : 0 < m.world.columnPool.pool.columnUses entry.handle :=
      List.countP_pos_iff.2 ⟨entry, member, decide_eq_true rfl⟩
    apply live
    unfold columnUses
    omega
  · intro priced member
    have used : 0 < m.world.columns.columnUses priced.column :=
      List.countP_pos_iff.2 ⟨priced, member, decide_eq_true rfl⟩
    apply live
    unfold columnUses
    omega
  · intro p entry member
    have used : 0 < (m.pools p).columnUses entry.handle :=
      List.countP_pos_iff.2 ⟨entry, member, decide_eq_true rfl⟩
    exact live (used.trans_le (m.columnUses_at entry.handle p).1)
  · intro p entry member
    have used : 0 < (m.columnPools p).pool.columnUses entry.handle :=
      List.countP_pos_iff.2 ⟨entry, member, decide_eq_true rfl⟩
    exact live (used.trans_le (m.columnUses_at entry.handle p).2.1)
  · intro p priced member
    have used : 0 < (m.rounds p).columnUses priced.column :=
      List.countP_pos_iff.2 ⟨priced, member, decide_eq_true rfl⟩
    exact live (used.trans_le (m.columnUses_at priced.column p).2.2)
  · intro column member
    exact (kept.column_live_iff column).2 (.inr (.inr member))

end Kept

/-- The rounds of a market, that of its session among them. -/
def Holds (m : Market ι) (round : PricingRound) : Prop :=
  round = m.world.columns ∨ ∃ p, round = m.rounds p

/-- To a round the rest of the market is owed elsewhere. -/
theorem Kept.round_settled [DecidableEq ι] [Inhabited ι] {m : Market ι} {lost : Holdings}
    (kept : m.Kept lost) {round : PricingRound} (held : m.Holds round) :
    ∃ owed, Settled (Linked.mk round m.world.lp) owed := by
  obtain rfl | ⟨p, rfl⟩ := held
  · obtain ⟨_, world, _⟩ := worldPart_frames.enter kept.settled
    obtain ⟨_, session, _⟩ := World.sessionPart_frames.enter world
    obtain ⟨_, inside, _⟩ := Session.columns_frames.enter session
    exact ⟨_, inside⟩
  · obtain ⟨_, inside, _⟩ := (roundAt_frames p).enter kept.settled
    exact ⟨_, inside⟩

end Market

/-- Whatever is done in whatever order, a registered column has the users that can be pointed
out and one more for each time that a round dropped it. The end of a round returns the uses of
all of its records but for the dropped ones. These are waiting records that were taken off while
their columns were loaded, and the columns still are. -/
theorem columns_accounted [DecidableEq ι] [Inhabited ι] {m : Market ι}
    {stranded : Multiset ColumnId} (reached : m.Reached stranded) :
    m.Accounted stranded ∧ ∀ round, m.Holds round → ∀ (quota : Nat) (column : ColumnId),
      let s : Linked PricingRound := ⟨round, m.world.lp⟩
      let s' := (PricingRound.selectBest quota s).state
      s'.own.stored = [] ∧
      s'.lp.columns.users column + round.columnUses column =
        s.lp.columns.users column + (PricingRound.dropped quota s).count column +
          (if column ∈ s'.lp.loadedColumns ∧ column ∉ s.lp.loadedColumns then 1 else 0) ∧
      (PricingRound.dropped quota s).count column ≤
        round.waiting.countP (·.column = column) ∧
      (column ∈ PricingRound.dropped quota s → column ∈ s'.lp.loadedColumns) := by
  obtain ⟨lost, kept, rfl⟩ := reached.kept
  refine ⟨kept.accounted, fun round held quota column => ?_⟩
  obtain ⟨owed, settled⟩ := kept.round_settled held
  have closed := reaches_iff.1 (PricingRound.selectBest_reaches settled quota)
  refine ⟨closed.emptied, PricingRound.selectBest_users settled quota column, ?_,
    closed.loaded column⟩
  have waited := Multiset.count_le_of_le column closed.waited
  rwa [Multiset.coe_count, PricingRound.waitingColumns, PricedColumn.count_columns] at waited

/-! ### A stranded column -/

/-- One structure of each sort, with default settings. -/
def Market.initial : Market Unit where
  world := .initial
  pools _ := .empty (Column.key 1e-9) 100
  columnPools _ := ⟨.empty (Column.key 1e-9) 100, 1e-6⟩
  rounds _ := .empty {}

theorem Market.initial_fresh : Market.initial.Fresh where
  world := World.initial_fresh
  pools _ := ⟨_, _, rfl⟩
  columnPools _ := ⟨{}, rfl⟩
  rounds _ := ⟨{}, rfl⟩

/-- The creation of a column. -/
def MarketCall.creation : MarketCall Unit :=
  .world (.client (.createColumn ⟨"a", 0, 0, 1, ⟨1, [(0, 1)]⟩, false⟩))

/-- A column is loaded and priced. -/
def Market.priced : Market Unit :=
  let created := MarketCall.creation.perform Market.initial
  let loaded := (.world (.client (.loadColumn ⟨0, 0⟩)) : MarketCall Unit).perform created.state
  ((.round () (.add ⟨0, 0⟩ (-1) false) : MarketCall Unit).perform loaded.state).state

def Market.ended : Market Unit :=
  ((.round () (.selectBest 5) : MarketCall Unit).perform Market.priced).state

theorem Market.priced_reached : Market.priced.Reached 0 := by
  have created := Reached.step MarketCall.creation (.fresh Market.initial_fresh) trivial
    (by decide +kernel)
  have loaded := Reached.step (.world (.client (.loadColumn ⟨0, 0⟩))) created trivial
    (by decide +kernel)
  exact Reached.step (.round () (.add ⟨0, 0⟩ (-1) false)) loaded trivial (by decide +kernel)

/-- The column has three users when the round begins, and they are left when it is over. -/
theorem columns_accounted_priced :
    let s : Linked PricingRound := ⟨Market.priced.rounds (), Market.priced.world.lp⟩
    let s' := (PricingRound.selectBest 5 s).state
    Market.priced.Reached 0 ∧ Market.priced.Accounted 0 ∧
      Market.priced.world.lp.columns.uses ⟨0, 0⟩ = .ok 3 ∧
      PricingRound.dropped 5 s = {⟨0, 0⟩} ∧ s'.own.stored = [] ∧
      s'.lp.columns.users ⟨0, 0⟩ + 1 = 3 + 1 + 0 := by
  intro s s'
  obtain ⟨accounted, ends⟩ := columns_accounted Market.priced_reached
  obtain ⟨emptied, users, _, _⟩ := ends (Market.priced.rounds ()) (.inr ⟨(), rfl⟩) 5 ⟨0, 0⟩
  have before : s.lp.columns.users ⟨0, 0⟩ = 3 ∧
      (Market.priced.rounds ()).columnUses ⟨0, 0⟩ = 1 ∧ s.lp.loadedColumns = [⟨0, 0⟩] := by
    decide +kernel
  have dropped : PricingRound.dropped 5 s = {⟨0, 0⟩} := by
    decide +kernel
  obtain ⟨three, waits, loaded⟩ := before
  have old : ¬(⟨0, 0⟩ ∈ s'.lp.loadedColumns ∧ (⟨0, 0⟩ : ColumnId) ∉ s.lp.loadedColumns) := by
    rw [loaded]
    exact fun entered => entered.2 (List.mem_singleton_self _)
  refine ⟨Market.priced_reached, accounted, by decide +kernel, dropped, emptied, ?_⟩
  rw [three, waits, dropped, Multiset.count_singleton_self, if_neg old] at users
  exact users

/-- A priced column that is loaded already keeps the use of a round that is over. -/
theorem column_stranded : Market.ended.Reached {⟨0, 0⟩} ∧
    Market.ended.columnUses ⟨0, 0⟩ = 1 ∧ Market.ended.world.lp.loadedColumns = [⟨0, 0⟩] ∧
    Market.ended.world.lp.columns.uses ⟨0, 0⟩ = .ok 3 := by
  refine ⟨?_, by decide +kernel⟩
  have ended := Market.Reached.step (.round () (.selectBest 5)) Market.priced_reached trivial
    (by decide +kernel)
  have dropped : MarketCall.dropped Market.priced (.round () (.selectBest 5)) = {⟨0, 0⟩} := by
    decide +kernel
  rw [dropped] at ended
  exact ended

end BranchCutPrice
