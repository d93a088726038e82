import BranchCutPrice.Proofs.Effects
import BranchCutPrice.Proofs.Positions
import Mathlib.Logic.Relation

/-!
What operations do to a relaxation, step by step and refused or not. Rows and columns enter and
leave the lists and the indexes beside them together, but for a clearance, which empties the list
of columns at once and the set column by column. Only an installation changes the solution, and it
gives the next number.
-/

namespace BranchCutPrice

open BranchCutPrice.Action

namespace Relaxation

/-- The solution installed last is the same. -/
structure SameSolution (lp lp' : Relaxation) : Prop where
  primal : lp'.primal = lp.primal
  duals : lp'.duals = lp.duals
  farkas : lp'.farkas = lp.farkas
  objective : lp'.objective = lp.objective
  solutions : lp'.solutions = lp.solutions

/-- The same rows and columns are loaded. -/
structure SameLoads (lp lp' : Relaxation) : Prop where
  rows : lp'.loadedRows = lp.loadedRows
  positions : lp'.rowPositions = lp.rowPositions
  columns : lp'.loadedColumns = lp.loadedColumns
  members : lp'.columnSet = lp.columnSet

/-- A step of an operation on a relaxation. Solutions are installed only if it `solves`, and
columns unloaded only if it `clears`. -/
inductive Shift (solves clears : Prop) : Relaxation → Relaxation → Prop where
  | beside {lp lp' : Relaxation} (loads : SameLoads lp lp') (solution : SameSolution lp lp') :
      Shift solves clears lp lp'
  | loadRow {lp : Relaxation} {row : RowId} (fresh : ¬lp.isRowLoaded row = true) :
      Shift solves clears lp { lp with
        rowPositions := lp.rowPositions.insert row lp.loadedRows.length
        loadedRows := lp.loadedRows ++ [row] }
  | dropRow {lp : Relaxation} {row : RowId} {position : Nat}
      (found : lp.rowPositions[row]? = some position) :
      Shift solves clears lp (lp.dropRow row position)
  | dropLast {lp : Relaxation} {rows : List RowId} {row : RowId}
      (last : lp.loadedRows = rows ++ [row]) :
      Shift solves clears lp { lp with
        loadedRows := lp.loadedRows.dropLast
        rowPositions := lp.rowPositions.erase row }
  | loadColumn {lp : Relaxation} {column : ColumnId} (fresh : ¬lp.isColumnLoaded column = true) :
      Shift solves clears lp { lp with
        columnSet := lp.columnSet.insert column
        loadedColumns := lp.loadedColumns ++ [column] }
  | unlist {lp : Relaxation} (allowed : clears) :
      Shift solves clears lp { lp with loadedColumns := [] }
  | forget {lp : Relaxation} (allowed : clears) (column : ColumnId) :
      Shift solves clears lp { lp with columnSet := lp.columnSet.erase column }
  | install {lp lp' : Relaxation} (allowed : solves) (loads : SameLoads lp lp')
      (next : lp'.solutions = lp.solutions + 1) : Shift solves clears lp lp'

/-- Any number of steps. -/
def Shifted (solves clears : Prop) : Relaxation → Relaxation → Prop :=
  Relation.ReflTransGen (Shift solves clears)

variable {solves clears : Prop} {lp lp' lp'' : Relaxation}

theorem Shift.shifted (shift : Shift solves clears lp lp') : Shifted solves clears lp lp' :=
  .single shift

namespace Shifted

theorem rfl : Shifted solves clears lp lp :=
  .refl

theorem trans (first : Shifted solves clears lp lp') (second : Shifted solves clears lp' lp'') :
    Shifted solves clears lp lp'' :=
  Relation.ReflTransGen.trans first second

instance : Std.Refl (Shifted solves clears) where
  refl _ := .rfl

instance : IsTrans Relaxation (Shifted solves clears) where
  trans _ _ _ first second := first.trans second

/-- Steps in which nothing is loaded, unloaded or installed. -/
theorem beside (loads : SameLoads lp lp') (solution : SameSolution lp lp') :
    Shifted solves clears lp lp' :=
  .single (.beside loads solution)

/-- What is allowed more may be done as well. -/
theorem mono {solves' clears' : Prop} (shifted : Shifted solves clears lp lp')
    (solving : solves → solves') (clearing : clears → clears') :
    Shifted solves' clears' lp lp' := by
  refine Relation.ReflTransGen.mono (fun lp lp' shift => ?_) _ _ shifted
  cases shift with
  | beside loads solution => exact .beside loads solution
  | loadRow fresh => exact .loadRow fresh
  | dropRow found => exact .dropRow found
  | dropLast last => exact .dropLast last
  | loadColumn fresh => exact .loadColumn fresh
  | unlist allowed => exact .unlist (clearing allowed)
  | forget allowed column => exact .forget (clearing allowed) column
  | install allowed loads next => exact .install (solving allowed) loads next

/-- The number of solutions never falls. -/
theorem solutions_le (shifted : Shifted solves clears lp lp') : lp.solutions ≤ lp'.solutions := by
  induction shifted with
  | refl => exact Nat.le_refl _
  | tail _ last ih =>
    apply ih.trans
    cases last with
    | beside _ solution => exact solution.solutions.ge
    | install _ _ next => exact next ▸ Nat.le_succ _
    | _ => exact Nat.le_refl _

/-- The row positions keep mirroring the list of loaded rows. -/
theorem mirrors (shifted : Shifted solves clears lp lp')
    (mirrors : Mirrors lp.rowPositions lp.loadedRows) :
    Mirrors lp'.rowPositions lp'.loadedRows := by
  induction shifted with
  | refl => exact mirrors
  | tail _ last ih =>
    cases last with
    | beside loads | install _ loads =>
      rw [loads.rows, loads.positions]
      exact ih
    | loadRow fresh => exact ih.load fun listed => fresh (ih.contains_iff.2 listed)
    | dropRow found => exact ih.drop found
    | dropLast last =>
      rw [last] at ih
      dsimp only
      rw [last, List.dropLast_concat]
      exact ih.unloadLast
    | loadColumn | unlist | forget => exact ih

end Shifted

/-! ### Loaded columns -/

/-- The columns of the list stand in it once, and the set of loaded columns holds them and
beside them the `strays`. -/
structure Rostered (lp : Relaxation) (strays : List ColumnId) : Prop where
  distinct : lp.loadedColumns.Nodup
  members : ∀ column, lp.isColumnLoaded column = true ↔
    column ∈ lp.loadedColumns ∨ column ∈ strays
  apart : ∀ column ∈ strays, column ∉ lp.loadedColumns

variable {strays : List ColumnId}

theorem Rostered.empty : empty.Rostered [] :=
  ⟨List.nodup_nil, fun _ => by simp [Relaxation.empty, isColumnLoaded], nofun⟩

theorem Rostered.load (rostered : lp.Rostered strays) {column : ColumnId}
    (fresh : ¬lp.isColumnLoaded column = true) :
    { lp with
      columnSet := lp.columnSet.insert column
      loadedColumns := lp.loadedColumns ++ [column] }.Rostered strays := by
  rw [rostered.members, not_or] at fresh
  refine ⟨?_, fun other => ?_, fun other stray => ?_⟩
  · exact List.nodup_append_comm.1 (List.nodup_cons.2 ⟨fresh.1, rostered.distinct⟩)
  · have before := rostered.members other
    unfold isColumnLoaded at before ⊢
    simp only [Std.TreeSet.contains_insert, Bool.or_eq_true, beq_iff_eq, before,
      Std.LawfulEqOrd.compare_eq_iff_eq, List.mem_append, List.mem_singleton]
    rw [@eq_comm _ column]
    tauto
  · dsimp only
    rw [List.mem_append, List.mem_singleton, not_or]
    refine ⟨rostered.apart other stray, ?_⟩
    rintro rfl
    exact fresh.2 stray

/-- Nothing but a clearance leaves columns behind. -/
theorem Shifted.rostered (shifted : Shifted solves False lp lp') (rostered : lp.Rostered strays) :
    lp'.Rostered strays := by
  induction shifted with
  | refl => exact rostered
  | tail _ last ih =>
    cases last with
    | beside loads | install _ loads =>
      refine ⟨?_, ?_, ?_⟩
      · rw [loads.columns]
        exact ih.distinct
      · intro column
        unfold isColumnLoaded
        rw [loads.columns, loads.members]
        exact ih.members column
      · rw [loads.columns]
        exact ih.apart
    | loadColumn fresh => exact ih.load fresh
    | unlist allowed | forget allowed => exact allowed.elim
    | loadRow | dropRow | dropLast => exact ⟨ih.distinct, ih.members, ih.apart⟩

/-! ### Actions -/

theorem captureRow_shifts (row : RowId) : (captureRow row).Respects (Shifted solves clears) :=
  respects_change fun _ _ changed => related_of_bind changed fun _ =>
    .beside ⟨rfl, rfl, rfl, rfl⟩ ⟨rfl, rfl, rfl, rfl, rfl⟩

theorem captureColumn_shifts (column : ColumnId) :
    (captureColumn column).Respects (Shifted solves clears) :=
  respects_change fun _ _ changed => related_of_bind changed fun _ =>
    .beside ⟨rfl, rfl, rfl, rfl⟩ ⟨rfl, rfl, rfl, rfl, rfl⟩

theorem captureBasis_shifts (basis : BasisId) :
    (captureBasis basis).Respects (Shifted solves clears) :=
  respects_change fun _ _ changed => related_of_bind changed fun _ =>
    .beside ⟨rfl, rfl, rfl, rfl⟩ ⟨rfl, rfl, rfl, rfl, rfl⟩

theorem releaseRow_shifts (row : RowId) : (releaseRow row).Respects (Shifted solves clears) :=
  respects_change fun _ _ changed => related_of_bind changed fun _ =>
    .beside ⟨rfl, rfl, rfl, rfl⟩ ⟨rfl, rfl, rfl, rfl, rfl⟩

theorem releaseColumn_shifts (column : ColumnId) :
    (releaseColumn column).Respects (Shifted solves clears) :=
  respects_change fun _ _ changed => related_of_bind changed fun _ =>
    .beside ⟨rfl, rfl, rfl, rfl⟩ ⟨rfl, rfl, rfl, rfl, rfl⟩

theorem releaseBasis_shifts (basis : BasisId) :
    (releaseBasis basis).Respects (Shifted solves clears) :=
  respects_change fun _ _ changed => related_of_bind changed fun _ =>
    .beside ⟨rfl, rfl, rfl, rfl⟩ ⟨rfl, rfl, rfl, rfl, rfl⟩

theorem replaceRow_shifts (row : RowId) (value : Row) :
    (replaceRow row value).Respects (Shifted solves clears) :=
  respects_change fun _ _ changed => related_of_bind changed fun _ =>
    .beside ⟨rfl, rfl, rfl, rfl⟩ ⟨rfl, rfl, rfl, rfl, rfl⟩

theorem replaceColumn_shifts (column : ColumnId) (value : Column) :
    (replaceColumn column value).Respects (Shifted solves clears) :=
  respects_change fun _ _ changed => related_of_bind changed fun _ =>
    .beside ⟨rfl, rfl, rfl, rfl⟩ ⟨rfl, rfl, rfl, rfl, rfl⟩

theorem replaceBasis_shifts (basis : BasisId) (value : Basis) :
    (replaceBasis basis value).Respects (Shifted solves clears) :=
  respects_change fun _ _ changed => related_of_bind changed fun _ =>
    .beside ⟨rfl, rfl, rfl, rfl⟩ ⟨rfl, rfl, rfl, rfl, rfl⟩

theorem captureRows_shifts (rows : List RowId) :
    (captureRows rows).Respects (Shifted solves clears) :=
  Respects.forM captureRow_shifts rows

theorem releaseRows_shifts (rows : List RowId) :
    (releaseRows rows).Respects (Shifted solves clears) :=
  Respects.forM releaseRow_shifts rows

theorem releaseColumns_shifts (columns : List ColumnId) :
    (releaseColumns columns).Respects (Shifted solves clears) :=
  Respects.forM releaseColumn_shifts columns

theorem createRow_shifts (row : Row) : (createRow row).Respects (Shifted solves clears) :=
  fun _ => ensures_modifyGet.2 (.beside ⟨rfl, rfl, rfl, rfl⟩ ⟨rfl, rfl, rfl, rfl, rfl⟩)

theorem createColumn_shifts (column : Column) :
    (createColumn column).Respects (Shifted solves clears) :=
  fun _ => ensures_modifyGet.2 (.beside ⟨rfl, rfl, rfl, rfl⟩ ⟨rfl, rfl, rfl, rfl, rfl⟩)

theorem createBasis_shifts (basis : Basis) : (createBasis basis).Respects (Shifted solves clears) :=
  fun _ => ensures_modifyGet.2 (.beside ⟨rfl, rfl, rfl, rfl⟩ ⟨rfl, rfl, rfl, rfl, rfl⟩)

theorem snapshotBasis_shifts : snapshotBasis.Respects (Shifted solves clears) :=
  respects_get.bind fun _ => createBasis_shifts _

theorem setBasis_shifts (basis : Basis) : (setBasis basis).Respects (Shifted solves clears) :=
  respects_modify fun _ => .beside ⟨rfl, rfl, rfl, rfl⟩ ⟨rfl, rfl, rfl, rfl, rfl⟩

theorem loadRow_shifts (row : RowId) : (loadRow row).Respects (Shifted solves clears) := by
  apply respects_change
  intro lp lp' changed
  split at changed
  · cases changed
  · rename_i fresh
    refine related_of_bind changed fun rows => ?_
    have captured : Shifted solves clears lp { lp with rows := rows } :=
      .beside ⟨rfl, rfl, rfl, rfl⟩ ⟨rfl, rfl, rfl, rfl, rfl⟩
    have loaded : Shift solves clears { lp with rows := rows } _ := .loadRow fresh
    exact captured.trans loaded.shifted

theorem loadColumn_shifts (column : ColumnId) :
    (loadColumn column).Respects (Shifted solves clears) := by
  apply respects_change
  intro lp lp' changed
  split at changed
  · cases changed
  · rename_i fresh
    refine related_of_bind changed fun columns => ?_
    have captured : Shifted solves clears lp { lp with columns := columns } :=
      .beside ⟨rfl, rfl, rfl, rfl⟩ ⟨rfl, rfl, rfl, rfl, rfl⟩
    have loaded : Shift solves clears { lp with columns := columns } _ := .loadColumn fresh
    exact captured.trans loaded.shifted

theorem unloadRow_shifts (row : RowId) : (unloadRow row).Respects (Shifted solves clears) := by
  intro lp
  unfold unloadRow
  rw [Reaches, ensures_bind, ensures_get]
  cases found : lp.rowPositions[row]? with
  | none => exact .rfl
  | some position =>
    dsimp only
    rw [ensures_bind, ensures_modify]
    exact (releaseRow_shifts row).after (Shift.dropRow found).shifted

theorem releaseRow_rows (lp : Relaxation) (row : RowId) :
    (releaseRow row).Reaches lp fun lp' => lp'.loadedRows = lp.loadedRows := by
  apply ensures_change.2
  refine ⟨fun lp' changed => ?_, fun _ _ => rfl⟩
  exact related_of_bind (R := fun lp lp' : Relaxation => lp'.loadedRows = lp.loadedRows) changed
    fun _ => rfl

theorem unloadLast_rows (lp : Relaxation) (row : RowId) :
    (unloadLast row).Reaches lp fun lp' => lp'.loadedRows = lp.loadedRows.dropLast := by
  unfold unloadLast
  rw [Reaches, ensures_bind, ensures_modify]
  exact releaseRow_rows _ row

theorem unloadLast_shifts {rows : List RowId} {row : RowId}
    (last : lp.loadedRows = rows ++ [row]) :
    (unloadLast row).Reaches lp (Shifted solves clears lp) := by
  unfold unloadLast
  rw [Reaches, ensures_bind, ensures_modify]
  exact (releaseRow_shifts row).after (Shift.dropLast last).shifted

/-- Rows are unloaded from the end of the list, as many as there are too many if no release is
refused. -/
theorem shrinkRows_unloads (lp : Relaxation) (length : Nat) :
    (shrinkRows length).Ensures lp
      (fun _ lp' => Shifted solves clears lp lp' ∧ lp'.loadedRows = lp.loadedRows.take length)
      fun _ lp' => Shifted solves clears lp lp' := by
  unfold shrinkRows
  rw [ensures_bind, ensures_get]
  -- the rows still to go are the last ones loaded
  let before (rest : List RowId) (lp' : Relaxation) : Prop :=
    Shifted solves clears lp lp' ∧ lp'.loadedRows = lp.loadedRows.take length ++ rest.reverse
  have start : before (lp.loadedRows.drop length).reverse lp := by
    refine ⟨.rfl, ?_⟩
    rw [List.reverse_reverse, List.take_append_drop]
  have step (row : RowId) (rest : List RowId) (lp' : Relaxation)
      (reached : before (row :: rest) lp') :
      (unloadLast row).Ensures lp' (fun _ => before rest)
        fun _ lp'' => Shifted solves clears lp lp'' := by
    obtain ⟨shifted, rows⟩ := reached
    rw [List.reverse_cons, ← List.append_assoc] at rows
    have unloads : (unloadLast row).Reaches lp' (Shifted solves clears lp') :=
      unloadLast_shifts rows
    apply (unloads.and (unloadLast_rows lp' row)).imp
    · intro _ lp'' done
      refine ⟨shifted.trans done.1, done.2.trans ?_⟩
      rw [rows, List.dropLast_concat]
    · intro _ lp'' done
      exact shifted.trans done.1
  apply (ensures_forM before step _ start).imp
  · intro _ lp' done
    exact ⟨done.1, done.2.trans (List.append_nil _)⟩
  · intro _ _ shifted
    exact shifted

theorem shrinkRows_shifts (length : Nat) :
    (shrinkRows length).Respects (Shifted solves clears) :=
  fun lp => (shrinkRows_unloads lp length).imp (fun _ _ done => done.1) fun _ _ shifted => shifted

theorem shrinkRows_rows (lp : Relaxation) (length : Nat) :
    (shrinkRows length).Yields lp fun _ lp' => lp'.loadedRows = lp.loadedRows.take length :=
  (@shrinkRows_unloads False False lp length).yields fun _ _ done => done.2

theorem installSolution_shifts (allowed : solves) (primal duals : Array Float)
    (objective : Float) :
    (installSolution primal duals objective).Respects (Shifted solves clears) :=
  fun _ => .single (.install allowed ⟨rfl, rfl, rfl, rfl⟩ rfl)

theorem installFarkas_shifts (allowed : solves) (proof : Array Float) :
    (installFarkas proof).Respects (Shifted solves clears) :=
  fun _ => .single (.install allowed ⟨rfl, rfl, rfl, rfl⟩ rfl)

theorem forgetColumn_shifts (allowed : clears) (column : ColumnId) :
    (forgetColumn column).Respects (Shifted solves clears) := by
  have forgotten : (modify fun lp : Relaxation =>
      { lp with columnSet := lp.columnSet.erase column } : Action Relaxation Unit).Respects
        (Shifted solves clears) :=
    respects_modify fun _ => .single (.forget allowed column)
  exact forgotten.bind fun _ => releaseColumn_shifts column

theorem clear_shifts (allowed : clears) : clear.Respects (Shifted solves clears) := by
  have unlisted : (modify fun lp : Relaxation => { lp with loadedColumns := [] } :
      Action Relaxation Unit).Respects (Shifted solves clears) :=
    respects_modify fun _ => .single (.unlist allowed)
  apply (shrinkRows_shifts 0).bind
  intro _
  apply respects_get.bind
  intro lp
  exact unlisted.bind fun _ => Respects.forM (forgetColumn_shifts allowed) _

end Relaxation

end BranchCutPrice
