import BranchCutPrice.Proofs.Relaxation

/-!
Loading and unloading. Being loaded counts as a use, so the balance stays the same; what
changes is the list of loaded rows or columns. Unloading what is loaded is never refused.
-/

namespace BranchCutPrice.Relaxation

open BranchCutPrice.Action

variable {lp : Relaxation} {owed : Holdings}

/-! ### Rows -/

theorem loadRow_ensures (balanced : lp.Balanced owed) (row : RowId) :
    (loadRow row).Ensures lp
      (fun _ lp' => lp'.Balanced owed ∧ lp'.loadedRows = lp.loadedRows ++ [row] ∧
        lp'.bases = lp.bases ∧ row ∉ lp.loadedRows)
      (fun _ lp' => lp' = lp ∧ (row ∈ lp.loadedRows ∨ lp.rows.contains row = false)) := by
  have loaded := balanced.isRowLoaded_iff row
  unfold loadRow
  refine ensures_change.2 ⟨fun lp' changed => ?_, fun e refused => ⟨rfl, ?_⟩⟩
  · by_cases fresh : row ∈ lp.loadedRows
    · rw [if_pos (loaded.2 fresh)] at changed
      cases changed
    · rw [if_neg (mt loaded.1 fresh)] at changed
      cases captured : lp.rows.capture row with
      | error e => simp [captured, bind, Except.bind] at changed
      | ok rows =>
        rw [captured] at changed
        cases changed
        have counted := balanced.rows.capture captured
        rw [← Multiset.add_cons, Multiset.cons_coe] at counted
        have positions := balanced.positions.load fresh
        refine ⟨⟨?_, balanced.columns, balanced.bases, positions, balanced.members,
          balanced.distinct⟩, rfl, rfl, fresh⟩
        rwa [Multiset.coe_eq_coe.2 (List.perm_append_singleton row lp.loadedRows)]
  · by_cases fresh : row ∈ lp.loadedRows
    · exact .inl fresh
    · right
      rw [if_neg (mt loaded.1 fresh)] at refused
      cases contained : lp.rows.contains row with
      | false => rfl
      | true =>
        obtain ⟨object, found⟩ := SlotTable.contains_iff.1 contained
        simp [Registry.capture, Registry.shared, found, bind, Except.bind, pure, Except.pure]
          at refused

/-- A held row that is not loaded can be loaded. -/
theorem loadRow_held (balanced : lp.Balanced owed) {row : RowId} (held : row ∈ owed.rows)
    (fresh : row ∉ lp.loadedRows) :
    (loadRow row).Ensures lp
      (fun _ lp' => lp'.Balanced owed ∧ lp'.loadedRows = lp.loadedRows ++ [row] ∧
        lp'.bases = lp.bases)
      (fun _ _ => False) := by
  refine (loadRow_ensures balanced row).imp (fun _ lp' done => ⟨done.1, done.2.1, done.2.2.1⟩)
    fun _ lp' refused => ?_
  have live := balanced.rows.live (Multiset.mem_add.2 (.inl held))
  obtain loaded | stale := refused.2
  · exact fresh loaded
  · rw [live] at stale
    cases stale

theorem unloadRow_ensures (balanced : lp.Balanced owed) (row : RowId) :
    (unloadRow row).Ensures lp (fun _ lp' => lp'.Balanced owed) (fun _ lp' => lp' = lp) := by
  unfold unloadRow
  rw [ensures_bind, ensures_get]
  cases found : lp.rowPositions[row]? with
  | none => rfl
  | some position =>
    rw [ensures_bind, ensures_modify]
    have here := (balanced.positions row position).1 found
    obtain ⟨bound, value⟩ := List.getElem?_eq_some_iff.1 here
    have moved : (lp.loadedRows : Multiset RowId) = row ::ₘ lp.loadedRows.eraseIdx position := by
      rw [← value, Multiset.cons_coe]
      exact Multiset.coe_eq_coe.2 (List.getElem_cons_eraseIdx_perm bound).symm
    have dropped := balanced.unload moved (balanced.positions.drop found)
    exact Completes.leads (releaseRow_ensures dropped) fun _ _ done => done.1

theorem unloadLast_ensures (balanced : lp.Balanced owed) {rows : List RowId} {row : RowId}
    (loaded : lp.loadedRows = rows ++ [row]) :
    (unloadLast row).Ensures lp
      (fun _ lp' => lp'.Balanced owed ∧ lp'.loadedRows = rows ∧
        lp'.bases.table.slots.size = lp.bases.table.slots.size)
      (fun _ _ => False) := by
  unfold unloadLast
  rw [ensures_bind, ensures_modify]
  have mirrors := balanced.positions
  rw [loaded] at mirrors
  have remaining : lp.loadedRows.dropLast = rows := by
    rw [loaded, List.dropLast_concat]
  have moved : (lp.loadedRows : Multiset RowId) = row ::ₘ lp.loadedRows.dropLast := by
    rw [remaining, loaded, Multiset.cons_coe]
    exact Multiset.coe_eq_coe.2 (List.perm_append_singleton row rows)
  have unloaded := balanced.unload moved (remaining.symm ▸ mirrors.unloadLast)
  refine (releaseRow_ensures unloaded).imp (fun _ lp' done => ?_) (fun _ _ no => no)
  exact ⟨done.1, done.2.loadedRows.trans remaining, done.2.slots⟩

theorem shrinkRows_ensures (balanced : lp.Balanced owed) (length : Nat) :
    (shrinkRows length).Ensures lp
      (fun _ lp' => lp'.Balanced owed ∧ lp'.loadedRows = lp.loadedRows.take length ∧
        lp'.bases.table.slots.size = lp.bases.table.slots.size)
      (fun _ _ => False) := by
  unfold shrinkRows
  rw [ensures_bind, ensures_get]
  -- the rows still to go are the last ones loaded
  let before (rest : List RowId) (lp' : Relaxation) : Prop :=
    lp'.Balanced owed ∧ lp'.loadedRows = lp.loadedRows.take length ++ rest.reverse ∧
      lp'.bases.table.slots.size = lp.bases.table.slots.size
  have start : before (lp.loadedRows.drop length).reverse lp := by
    refine ⟨balanced, ?_, rfl⟩
    rw [List.reverse_reverse, List.take_append_drop]
  refine (ensures_forM before (fun row rest lp' reached => ?_) _ start).imp
    (fun _ lp' done => ?_) (fun _ _ no => no)
  · obtain ⟨balanced', loaded, slots⟩ := reached
    rw [List.reverse_cons, ← List.append_assoc] at loaded
    exact (unloadLast_ensures balanced' loaded).imp
      (fun _ lp'' done => ⟨done.1, done.2.1, done.2.2.trans slots⟩) (fun _ _ no => no)
  · obtain ⟨balanced', loaded, slots⟩ := done
    rw [List.reverse_nil, List.append_nil] at loaded
    exact ⟨balanced', loaded, slots⟩

/-! ### Columns -/

theorem loadColumn_ensures (balanced : lp.Balanced owed) (column : ColumnId) :
    (loadColumn column).Ensures lp
      (fun _ lp' => lp'.Balanced owed ∧ lp'.loadedRows = lp.loadedRows) (fun _ lp' => lp' = lp) := by
  have loaded := balanced.isColumnLoaded_iff column
  unfold loadColumn
  refine ensures_change.2 ⟨fun lp' changed => ?_, fun e refused => rfl⟩
  by_cases fresh : column ∈ lp.loadedColumns
  · rw [if_pos (loaded.2 fresh)] at changed
    cases changed
  · rw [if_neg (mt loaded.1 fresh)] at changed
    cases captured : lp.columns.capture column with
    | error e => simp [captured, bind, Except.bind] at changed
    | ok columns =>
      rw [captured] at changed
      cases changed
      have counted := balanced.columns.capture captured
      rw [← Multiset.add_cons, Multiset.cons_coe] at counted
      refine ⟨⟨balanced.rows, ?_, balanced.bases, balanced.positions, fun other => ?_, ?_⟩, rfl⟩
      · rwa [Multiset.coe_eq_coe.2 (List.perm_append_singleton column lp.loadedColumns)]
      · change other ∈ lp.columnSet.insert column ↔ other ∈ lp.loadedColumns ++ [column]
        simp only [Std.TreeSet.mem_insert, Std.LawfulEqOrd.compare_eq_iff_eq, List.mem_append,
          List.mem_singleton, balanced.members other]
        tauto
      · refine List.nodup_append.2 ⟨balanced.distinct, List.nodup_singleton column, ?_⟩
        intro other member another single same
        rw [List.mem_singleton] at single
        subst same single
        exact fresh member

theorem loadColumn_columns (lp : Relaxation) (column : ColumnId) :
    (loadColumn column).Ensures lp
      (fun _ lp' => lp'.loadedColumns = lp.loadedColumns ++ [column])
      (fun _ _ => lp.isColumnLoaded column = true ∨ lp.columns.contains column = false) := by
  unfold loadColumn
  refine ensures_change.2 ⟨fun lp' changed => ?_, fun e refused => ?_⟩
  · split at changed
    · cases changed
    · cases captured : lp.columns.capture column with
      | error e => simp [captured, bind, Except.bind] at changed
      | ok columns =>
        rw [captured] at changed
        cases changed
        rfl
  · split at refused
    · exact .inl ‹_›
    · right
      cases live : lp.columns.contains column with
      | false => rfl
      | true =>
        obtain ⟨columns, captured⟩ := Registry.capture_live live
        simp [captured, bind, Except.bind, pure, Except.pure] at refused

/-- While columns are unloaded one by one, those still to go count as loaded. -/
private theorem forgetColumn_ensures {column : ColumnId} {rest : List ColumnId}
    (empty : lp.loadedColumns = [])
    (balanced : { lp with loadedColumns := column :: rest }.Balanced owed) :
    (forgetColumn column).Ensures lp
      (fun _ lp' => lp'.loadedColumns = [] ∧ { lp' with loadedColumns := rest }.Balanced owed ∧
        lp'.loadedRows = lp.loadedRows)
      (fun _ _ => False) := by
  obtain ⟨fresh, distinct⟩ := List.nodup_cons.1 balanced.distinct
  have users : lp.columns.Balanced (column ::ₘ (owed.columns + rest)) := by
    rw [← Multiset.add_cons]
    exact balanced.columns
  obtain ⟨freed, columns, released, counted⟩ := users.release
  have members (other : ColumnId) : other ∈ lp.columnSet.erase column ↔ other ∈ rest := by
    have before := balanced.members other
    change other ∈ lp.columnSet ↔ other ∈ column :: rest at before
    simp only [Std.TreeSet.mem_erase, Std.LawfulEqOrd.compare_eq_iff_eq, before, List.mem_cons,
      ne_eq]
    constructor
    · rintro ⟨different, rfl | member⟩
      · exact absurd rfl different
      · exact member
    · intro member
      refine ⟨?_, .inr member⟩
      rintro rfl
      exact fresh member
  unfold forgetColumn
  rw [ensures_bind, ensures_modify]
  refine ensures_change.2 ⟨fun lp' changed => ?_, fun e refused => ?_⟩
  · simp only [released] at changed
    cases changed
    exact ⟨empty, ⟨balanced.rows, counted, balanced.bases, balanced.positions, members, distinct⟩,
      rfl⟩
  · simp only [released] at refused
    cases refused

theorem clear_ensures (balanced : lp.Balanced owed) :
    clear.Ensures lp
      (fun _ lp' => lp'.Balanced owed ∧ lp'.loadedRows = [] ∧ lp'.loadedColumns = [])
      (fun _ _ => False) := by
  unfold clear
  rw [ensures_bind]
  refine (shrinkRows_ensures balanced 0).imp (fun _ lp' shrunk => ?_) (fun _ _ no => no)
  obtain ⟨balanced', loaded, _⟩ := shrunk
  rw [ensures_bind, ensures_get, ensures_bind, ensures_modify]
  let before (rest : List ColumnId) (lp'' : Relaxation) : Prop :=
    lp''.loadedColumns = [] ∧ { lp'' with loadedColumns := rest }.Balanced owed ∧
      lp''.loadedRows = []
  have start : before lp'.loadedColumns { lp' with loadedColumns := [] } :=
    ⟨rfl, balanced', loaded⟩
  refine (ensures_forM before (fun column rest lp'' reached => ?_) _ start).imp
    (fun _ lp'' done => ?_) (fun _ _ no => no)
  · obtain ⟨empty, balanced'', loaded''⟩ := reached
    exact (forgetColumn_ensures empty balanced'').imp
      (fun _ _ done => ⟨done.1, done.2.1, done.2.2.trans loaded''⟩) (fun _ _ no => no)
  · obtain ⟨empty, balanced'', loaded''⟩ := done
    rw [← empty] at balanced''
    exact ⟨balanced'', loaded'', empty⟩

/-! ### Solutions -/

theorem setBasis_ensures (balanced : lp.Balanced owed) (basis : Basis) :
    (setBasis basis).Ensures lp
      (fun _ lp' => lp'.Balanced owed ∧ lp'.loadedRows = lp.loadedRows) (fun _ _ => False) :=
  ⟨⟨balanced.rows, balanced.columns, balanced.bases, balanced.positions, balanced.members,
    balanced.distinct⟩, rfl⟩

theorem installSolution_ensures (balanced : lp.Balanced owed) (primal duals : Array Float)
    (objective : Float) :
    (installSolution primal duals objective).Ensures lp
      (fun _ lp' => lp'.Balanced owed ∧ lp'.loadedRows = lp.loadedRows) (fun _ _ => False) :=
  ⟨⟨balanced.rows, balanced.columns, balanced.bases, balanced.positions, balanced.members,
    balanced.distinct⟩, rfl⟩

theorem installFarkas_ensures (balanced : lp.Balanced owed) (proof : Array Float) :
    (installFarkas proof).Ensures lp
      (fun _ lp' => lp'.Balanced owed ∧ lp'.loadedRows = lp.loadedRows) (fun _ _ => False) :=
  ⟨⟨balanced.rows, balanced.columns, balanced.bases, balanced.positions, balanced.members,
    balanced.distinct⟩, rfl⟩

end BranchCutPrice.Relaxation
