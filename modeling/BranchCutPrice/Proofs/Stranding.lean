import BranchCutPrice.Proofs.Rounds

/-!
What ends a pricing round. A waiting column that turns out to be loaded already leaves the
round and is not released, so that its use by the round stays behind. All other columns of
the round are released, and nothing else changes hands. As the round holds its columns all the
while, nothing of this is refused.
-/

namespace BranchCutPrice.PricingRound

open BranchCutPrice.Action Relaxation

variable {s s' s'' : Linked PricingRound} {owed : Holdings} {lost lost' : Multiset ColumnId}

/-- A round that holds the same columns as before is as settled as before. -/
private theorem settled_same (settled : Settled s owed) {round : PricingRound}
    (same : (round.columns : Multiset ColumnId) = s.own.columns) :
    Settled (Linked.mk round s.lp) owed :=
  settled.congr (congrArg Holdings.ofColumns same)

/-! ### Columns that leave unseen -/

/-- The columns that wait. -/
def waitingColumns (round : PricingRound) : List ColumnId :=
  round.waiting.map PricedColumn.column

/-- On the way from one state to another some of the waiting columns left the round that were not
released, each of them loaded by then; and columns were only loaded. -/
structure Strands (lost : Multiset ColumnId) (owed : Holdings) (s s' : Linked PricingRound) :
    Prop where
  settled : Settled s' (owed + .ofColumns lost)
  columns : lost + (s'.own.columns : Multiset ColumnId) = s.own.columns
  waiting : lost + (s'.own.waitingColumns : Multiset ColumnId) ≤ s.own.waitingColumns
  loaded : ∀ column ∈ lost, column ∈ s'.lp.loadedColumns
  grows : s.lp.loadedColumns ⊆ s'.lp.loadedColumns
  rows : s'.lp.loadedRows = s.lp.loadedRows

namespace Strands

theorem none (settled : Settled s' owed)
    (columns : (s'.own.columns : Multiset ColumnId) = s.own.columns)
    (waiting : (s'.own.waitingColumns : Multiset ColumnId) ≤ s.own.waitingColumns)
    (grows : s.lp.loadedColumns ⊆ s'.lp.loadedColumns)
    (rows : s'.lp.loadedRows = s.lp.loadedRows) : Strands 0 owed s s' where
  settled := by
    rw [show Holdings.ofColumns 0 = 0 from rfl, add_zero]
    exact settled
  columns := by
    rw [zero_add]
    exact columns
  waiting := by
    rw [zero_add]
    exact waiting
  loaded _ member := absurd member (Multiset.notMem_zero _)
  grows := grows
  rows := rows

theorem refl (settled : Settled s owed) : Strands 0 owed s s :=
  .none settled rfl le_rfl (List.Subset.refl _) rfl

theorem trans (first : Strands lost owed s s')
    (second : Strands lost' (owed + .ofColumns lost) s' s'') :
    Strands (lost + lost') owed s s'' where
  settled := by
    rw [Holdings.ofColumns_add, ← add_assoc]
    exact second.settled
  columns := by
    rw [add_assoc, second.columns, first.columns]
  waiting := by
    rw [add_assoc]
    exact (add_le_add_right second.waiting lost).trans first.waiting
  loaded column member := by
    obtain earlier | later := Multiset.mem_add.1 member
    · exact second.grows (first.loaded column earlier)
    · exact second.loaded column later
  grows := List.Subset.trans first.grows second.grows
  rows := second.rows.trans first.rows

/-- What strands no columns leaves the state settled. -/
theorem kept (strands : Strands 0 owed s s') : Settled s' owed := by
  have settled := strands.settled
  rwa [show Holdings.ofColumns 0 = 0 from rfl, add_zero] at settled

theorem after (first : Strands 0 owed s s') (second : Strands lost owed s' s'') :
    Strands lost owed s s'' := by
  have whole : Strands (0 + lost) owed s s'' := by
    apply first.trans
    rw [show Holdings.ofColumns 0 = 0 from rfl, add_zero]
    exact second
  rwa [zero_add] at whole

end Strands

theorem updateOrthogonality_strands (settled : Settled s owed) (admitted : ColumnId) :
    (updateOrthogonality admitted).Reaches s (Strands 0 owed s) := by
  unfold Reaches updateOrthogonality
  rw [ensures_bind, ensures_get, ensures_bind]
  refine ensures_read.2 ⟨fun column _ => ?_, fun _ _ => .refl settled⟩
  dsimp only
  have columns := besideAll_columns s.own.settings s.lp.columns column s.own.waiting
  generalize besideAll s.own.settings s.lp.columns column s.own.waiting = rescored at columns ⊢
  obtain ⟨result, waiting⟩ := rescored
  have reordered (waiting' : List PricedColumn)
      (same : (waiting'.map PricedColumn.column).Perm (s.own.waiting.map PricedColumn.column)) :
      Strands 0 owed s ⟨{ s.own with waiting := waiting' }, s.lp⟩ :=
    .none (settled_same settled (columns_waiting s.own same)) (columns_waiting s.own same)
      (Multiset.coe_eq_coe.2 same).le (List.Subset.refl _) rfl
  rw [ensures_bind, ensures_onOwn, ensures_modify, ensures_bind]
  cases result with
  | error e => exact reordered _ (.of_eq columns)
  | ok _ =>
    dsimp only
    rw [ensures_resume_ok, ensures_onOwn, ensures_modify]
    have sorted := (Ranking.sort_perm PricedColumn.before waiting).map PricedColumn.column
    exact reordered _ (sorted.trans (.of_eq columns))

theorem besideAll_live {registry : Registry .column Column} {waiting : List PricedColumn}
    (live : ∀ priced ∈ waiting, registry.contains priced.column = true) (settings : PricingSettings)
    (admitted : Column) : (besideAll settings registry admitted waiting).1 = .ok () := by
  induction waiting with
  | nil => rfl
  | cons priced rest ih =>
    obtain ⟨here, later⟩ := List.forall_mem_cons.1 live
    obtain ⟨column, got⟩ := Registry.contains_iff_get.1 here
    unfold besideAll
    rw [got]
    exact ih later

/-- What the round holds is registered. -/
theorem live (settled : Settled s owed) {column : ColumnId} (stored : column ∈ s.own.columns) :
    s.lp.columns.contains column = true := by
  have balanced : s.lp.Balanced (owed + Holder.holdings s.own) := settled
  apply balanced.columns.live
  rw [Holdings.columns_add]
  exact Multiset.mem_add.2 (.inl (Multiset.mem_add.2 (.inr stored)))

theorem updateOrthogonality_completes (settled : Settled s owed) {admitted : ColumnId}
    (stored : admitted ∈ s.own.columns) :
    (updateOrthogonality admitted).Completes s fun _ s' => Strands 0 owed s s' := by
  have waiting : ∀ priced ∈ s.own.waiting, s.lp.columns.contains priced.column = true :=
    fun _ member => live settled (waiting_stored member)
  obtain ⟨column, got⟩ := Registry.contains_iff_get.1 (live settled stored)
  have succeeds : (updateOrthogonality admitted).Completes s fun _ _ => True := by
    unfold updateOrthogonality
    rw [Completes, ensures_bind, ensures_get]
    apply Completes.of_read (a := column)
    · exact got
    · have rescored := besideAll_live waiting s.own.settings column
      generalize besideAll s.own.settings s.lp.columns column s.own.waiting = outcome
        at rescored ⊢
      obtain ⟨result, others⟩ := outcome
      cases rescored
      exact trivial
  exact (succeeds.also (updateOrthogonality_strands settled admitted)).mono fun _ _ both => both.2

/-- A column that is registered and not loaded can be loaded. -/
theorem loadColumn_completes {round : PricingRound} {lp : Relaxation}
    (settled : Settled (Linked.mk round lp) owed) {column : ColumnId}
    (live : lp.columns.contains column = true) (unloaded : ¬lp.isColumnLoaded column = true) :
    (Relaxation.loadColumn column).Completes lp fun _ lp' =>
      Settled (Linked.mk round lp') owed ∧ lp'.loadedRows = lp.loadedRows ∧
        lp'.loadedColumns = lp.loadedColumns ++ [column] := by
  have balanced : lp.Balanced (owed + Holder.holdings round) := settled
  apply ((loadColumn_ensures balanced column).and (loadColumn_columns lp column)).imp
  · intro _ _ loaded
    exact ⟨loaded.1.1, loaded.1.2, loaded.2⟩
  · intro _ _ refused
    obtain twice | stale := refused.2
    · exact unloaded twice
    · rw [live] at stale
      cases stale

theorem admitForced_strands (settled : Settled s owed) {forced : List PricedColumn}
    (stored : ∀ priced ∈ forced, priced.column ∈ s.own.columns) :
    (admitForced forced).Completes s fun _ s' => Strands 0 owed s s' ∧
      ∀ priced ∈ forced, priced.column ∈ s'.lp.loadedColumns := by
  induction forced generalizing s with
  | nil => exact ⟨.refl settled, fun _ member => absurd member List.not_mem_nil⟩
  | cons priced rest ih =>
    have balanced : s.lp.Balanced (owed + Holder.holdings s.own) := settled
    obtain ⟨here, later⟩ := List.forall_mem_cons.1 stored
    -- what is loaded when the rest is admitted stays loaded
    have ends {s' : Linked PricingRound} (begun : Strands 0 owed s s')
        (loaded : priced.column ∈ s'.lp.loadedColumns) :
        (admitForced rest).Completes s' fun _ t => Strands 0 owed s t ∧
          ∀ other ∈ priced :: rest, other.column ∈ t.lp.loadedColumns := by
      have same : (s'.own.columns : Multiset ColumnId) = s.own.columns := by
        rw [← begun.columns, zero_add]
      have stored' : ∀ other ∈ rest, other.column ∈ s'.own.columns := by
        intro other member
        rw [← Multiset.mem_coe, same]
        exact later other member
      apply (ih begun.kept stored').mono
      intro _ t done
      obtain ⟨strands, loads⟩ := done
      exact ⟨begun.after strands, List.forall_mem_cons.2 ⟨strands.grows loaded, loads⟩⟩
    unfold admitForced
    rw [Completes, ensures_bind, ensures_get]
    split
    · rename_i already
      exact ends (.refl settled) ((balanced.isColumnLoaded_iff priced.column).1 already)
    · rename_i unloaded
      rw [ensures_bind, ensures_onLp]
      apply (loadColumn_completes settled (live settled here) unloaded).mono
      intro _ lp' loaded
      obtain ⟨settled', rows, columns⟩ := loaded
      have grows : s.lp.loadedColumns ⊆ lp'.loadedColumns := by
        rw [columns]
        exact List.subset_append_left _ _
      have loads : Strands 0 owed s ⟨s.own, lp'⟩ := .none settled' rfl le_rfl grows rows
      apply (updateOrthogonality_completes (s := ⟨s.own, lp'⟩) settled' here).bind
      intro _ s' updates
      have fresh : priced.column ∈ s'.lp.loadedColumns := by
        apply updates.grows
        rw [columns]
        exact List.mem_append_right _ (List.mem_singleton_self _)
      exact (ends (loads.after updates) fresh).bind fun _ _ done => done

/-- A waiting column that is loaded already leaves the round without being released. -/
theorem drop_strands (settled : Settled s owed) {best : PricedColumn} {rest : List PricedColumn}
    (waiting : s.own.waiting = best :: rest) (loaded : s.lp.isColumnLoaded best.column = true) :
    Strands {best.column} owed s ⟨{ s.own with waiting := rest }, s.lp⟩ := by
  have balanced : s.lp.Balanced (owed + Holder.holdings s.own) := settled
  have remaining := columns_rest s.own waiting
  refine ⟨settled.give (congrArg Holdings.ofColumns remaining), ?_, ?_, ?_, List.Subset.refl _,
    rfl⟩
  · rw [add_comm]
    exact remaining
  · rw [waitingColumns, waitingColumns, waiting]
    exact le_rfl
  · intro column single
    rw [Multiset.mem_singleton.1 single]
    exact (balanced.isColumnLoaded_iff best.column).1 loaded

/-- The round with the first of its waiting columns among the selected ones. -/
def choose (best : PricedColumn) (rest : List PricedColumn) (round : PricingRound) :
    PricingRound :=
  { round with waiting := rest, selected := round.selected ++ [best] }

theorem mem_choose (best : PricedColumn) (rest : List PricedColumn) (round : PricingRound) :
    best.column ∈ (choose best rest round).columns :=
  selected_stored (List.mem_append_right _ (List.mem_singleton_self best))

theorem columns_choose (round : PricingRound) {best : PricedColumn} {rest : List PricedColumn}
    (waiting : round.waiting = best :: rest) :
    ((choose best rest round).columns : Multiset ColumnId) = round.columns :=
  (columns_selected { round with waiting := rest } best).trans (columns_rest round waiting)

/-- A column that was taken off the waiting ones is loaded and selected, and none is lost. -/
theorem admitBest_strands (settled : Settled s owed) {best : PricedColumn}
    {rest : List PricedColumn} (waiting : s.own.waiting = best :: rest)
    (unloaded : ¬s.lp.isColumnLoaded best.column = true) :
    (admitBest best).Completes ⟨{ s.own with waiting := rest }, s.lp⟩ fun _ s' =>
      Strands 0 owed s s' := by
  have same := columns_choose s.own waiting
  have chosen := mem_choose best rest s.own
  have stored : best.column ∈ s.own.columns := by
    rw [← Multiset.mem_coe, ← same]
    exact chosen
  have fewer : ((choose best rest s.own).waitingColumns : Multiset ColumnId) ≤
      s.own.waitingColumns := by
    rw [waitingColumns, waitingColumns, waiting]
    exact Multiset.le_cons_self (rest.map PricedColumn.column : Multiset ColumnId) best.column
  unfold admitBest
  rw [Completes, ensures_bind, ensures_emit, ensures_bind, ensures_onLp]
  apply (loadColumn_completes settled (live settled stored) unloaded).mono
  intro _ lp' loaded
  obtain ⟨settled', rows, columns⟩ := loaded
  have grows : s.lp.loadedColumns ⊆ lp'.loadedColumns := by
    rw [columns]
    exact List.subset_append_left _ _
  have choosing : Strands 0 owed s ⟨choose best rest s.own, lp'⟩ :=
    .none (settled_same settled' same) same fewer grows rows
  rw [ensures_bind, ensures_onOwn, ensures_modify]
  exact (updateOrthogonality_completes choosing.kept chosen).mono fun _ _ => choosing.after

/-! ### Records of loaded columns -/

/-- The columns of the records that are taken off the waiting ones while they are loaded, until
`quota` others were admitted or an admission is refused. -/
def passedOver : (steps quota : Nat) → Linked PricingRound → Multiset ColumnId
  | 0, _, _ => 0
  | _, 0, _ => 0
  | steps + 1, quota + 1, s =>
      match s.own.waiting with
      | [] => 0
      | best :: rest =>
          let taken : Linked PricingRound := ⟨{ s.own with waiting := rest }, s.lp⟩
          if s.lp.isColumnLoaded best.column then
            {best.column} + passedOver steps (quota + 1) taken
          else
            let admitted := admitBest best taken
            if admitted.result.isOk then passedOver steps quota admitted.state else 0

/-- The columns of the waiting records that were loaded when they were taken off. -/
def dropped (quota : Nat) (s : Linked PricingRound) : Multiset ColumnId :=
  let forced := admitForced s.own.forced s
  if forced.result.isOk then passedOver forced.state.own.waiting.length quota forced.state else 0

section PassedOver

variable {best : PricedColumn} {rest : List PricedColumn} {steps quota : Nat}

theorem passedOver_nil (none : s.own.waiting = []) :
    passedOver (steps + 1) (quota + 1) s = 0 := by
  unfold passedOver
  rw [none]

theorem passedOver_loaded (waiting : s.own.waiting = best :: rest)
    (loaded : s.lp.isColumnLoaded best.column = true) :
    passedOver (steps + 1) (quota + 1) s =
      {best.column} + passedOver steps (quota + 1) ⟨{ s.own with waiting := rest }, s.lp⟩ := by
  conv_lhs => unfold passedOver
  rw [waiting]
  exact if_pos loaded

theorem passedOver_admitted (waiting : s.own.waiting = best :: rest)
    (unloaded : ¬s.lp.isColumnLoaded best.column = true)
    (ended : (admitBest best ⟨{ s.own with waiting := rest }, s.lp⟩).result = .ok ()) :
    passedOver (steps + 1) (quota + 1) s =
      passedOver steps quota (admitBest best ⟨{ s.own with waiting := rest }, s.lp⟩).state := by
  conv_lhs => unfold passedOver
  rw [waiting]
  dsimp only
  rw [if_neg unloaded, ended]
  rfl

end PassedOver

/-- What an admission loses are the records of columns that were loaded already. -/
theorem admitWaiting_strands (settled : Settled s owed) (steps quota : Nat) :
    (admitWaiting steps quota).Completes s fun _ s' =>
      Strands (passedOver steps quota s) owed s s' := by
  induction steps generalizing s owed quota with
  | zero => exact .refl settled
  | succ steps ih =>
    cases quota with
    | zero => exact .refl settled
    | succ quota =>
      unfold admitWaiting
      rw [Completes, ensures_bind, ensures_get]
      cases waiting : s.own.waiting with
      | nil =>
        rw [passedOver_nil waiting]
        exact .refl settled
      | cons best rest =>
        dsimp only
        rw [ensures_bind, ensures_onOwn, ensures_modify, ensures_bind, ensures_get]
        split
        · rename_i already
          rw [passedOver_loaded waiting already]
          have dropping := drop_strands settled waiting already
          exact (ih dropping.settled (quota + 1)).mono fun _ _ later => dropping.trans later
        · rename_i unloaded
          apply ((admitBest_strands settled waiting unloaded).also (ensures_ran _ _)).bind
          rintro _ s' ⟨admits, ended, state⟩
          rw [passedOver_admitted waiting unloaded ended, state]
          exact (ih admits.kept quota).bind fun _ _ later => admits.after later

/-! ### The end of a round -/

/-- Columns are only loaded, the forced ones in any case, and what is lost was dropped. -/
theorem admitAll_strands (settled : Settled s owed) (quota : Nat) :
    (admitAll quota).Completes s fun _ s' => Strands (dropped quota s) owed s s' ∧
      ∀ priced ∈ s.own.forced, priced.column ∈ s'.lp.loadedColumns := by
  have stored : ∀ priced ∈ s.own.forced, priced.column ∈ s.own.columns :=
    fun _ => forced_stored
  unfold admitAll
  rw [Completes, ensures_bind, ensures_get]
  apply ((admitForced_strands settled stored).also (ensures_ran _ s)).bind
  rintro _ s' ⟨⟨forced, loads⟩, ended, state⟩
  have same : dropped quota s = passedOver s'.own.waiting.length quota s' := by
    unfold dropped
    dsimp only
    rw [ended, state]
    rfl
  rw [same, Completes, ensures_bind, ensures_get]
  apply (admitWaiting_strands forced.kept _ quota).bind
  intro _ s'' strands
  exact ⟨forced.after strands, fun priced member => strands.grows (loads priced member)⟩

/-- The round was emptied, and all of its columns but the lost ones were released. These had waited,
and were loaded by then. -/
structure Closed (lost : Multiset ColumnId) (owed : Holdings) (s s' : Linked PricingRound) :
    Prop where
  settled : Settled s' (owed + .ofColumns lost)
  emptied : s'.own.stored = []
  waited : lost ≤ s.own.waitingColumns
  loaded : ∀ column ∈ lost, column ∈ s'.lp.loadedColumns
  grows : s.lp.loadedColumns ⊆ s'.lp.loadedColumns
  rows : s'.lp.loadedRows = s.lp.loadedRows

theorem clear_closes (strands : Strands lost owed s s') :
    clear.Completes s' fun _ s'' => Closed lost owed s s'' ∧
      s''.lp.loadedColumns = s'.lp.loadedColumns := by
  apply Completes.mono (clear_ensures strands.settled)
  intro _ s'' cleared
  obtain ⟨settled', emptied, still⟩ := cleared
  have columns : s''.lp.loadedColumns = s'.lp.loadedColumns := by
    rw [still.same]
  refine ⟨⟨settled', ?_, ?_, ?_, ?_, still.loadedRows.trans strands.rows⟩, columns⟩
  · rw [emptied]
    rfl
  · exact (Multiset.le_add_right _ _).trans strands.waiting
  · rw [columns]
    exact strands.loaded
  · rw [columns]
    exact strands.grows

/-- The end of a round is never refused, and the forced columns are loaded then. -/
theorem selectBest_closes (settled : Settled s owed) (quota : Nat) :
    (selectBest quota).Completes s fun _ s' => Closed (dropped quota s) owed s s' ∧
      ∀ priced ∈ s.own.forced, priced.column ∈ s'.lp.loadedColumns := by
  unfold selectBest
  rw [Completes, ensures_bind, ensures_attempt]
  apply (admitAll_strands settled quota).leads
  rintro _ s' ⟨strands, loads⟩
  apply (clear_closes strands).bind
  rintro _ s'' ⟨closed, columns⟩
  rw [Completes, ensures_bind, ensures_resume_ok, ensures_bind, ensures_emit, ensures_pure, columns]
  exact ⟨closed, loads⟩

theorem selectBest_reaches (settled : Settled s owed) (quota : Nat) :
    (selectBest quota).Reaches s (Closed (dropped quota s) owed s) :=
  (selectBest_closes settled quota).reaches fun _ _ done => done.1

end BranchCutPrice.PricingRound
