import BranchCutPrice.Proofs.Outcome
import BranchCutPrice.Proofs.Positions
import BranchCutPrice.Proofs.Users
import Mathlib.Tactic.Abel

/-!
What is owed to the relaxation. Whoever captured rows, columns or bases holds them; the
relaxation is balanced against all that is held outside of it if every registered object
has exactly the users that hold it, the lists of loaded rows and columns included. The
actions of the relaxation move objects between what is held and what is not.
-/

namespace BranchCutPrice

/-- Captured objects, each as often as it was captured. -/
@[ext]
structure Holdings where
  rows : Multiset RowId
  columns : Multiset ColumnId
  bases : Multiset BasisId

namespace Holdings

instance : Zero Holdings :=
  ⟨⟨0, 0, 0⟩⟩

instance : Add Holdings :=
  ⟨fun a b => ⟨a.rows + b.rows, a.columns + b.columns, a.bases + b.bases⟩⟩

@[simp]
theorem rows_zero : (0 : Holdings).rows = 0 :=
  rfl

@[simp]
theorem columns_zero : (0 : Holdings).columns = 0 :=
  rfl

@[simp]
theorem bases_zero : (0 : Holdings).bases = 0 :=
  rfl

@[simp]
theorem rows_add (a b : Holdings) : (a + b).rows = a.rows + b.rows :=
  rfl

@[simp]
theorem columns_add (a b : Holdings) : (a + b).columns = a.columns + b.columns :=
  rfl

@[simp]
theorem bases_add (a b : Holdings) : (a + b).bases = a.bases + b.bases :=
  rfl

instance : AddCancelCommMonoid Holdings where
  add_assoc a b c := by ext1 <;> exact add_assoc _ _ _
  zero_add a := by ext1 <;> exact zero_add _
  add_zero a := by ext1 <;> exact add_zero _
  add_comm a b := by ext1 <;> exact add_comm _ _
  add_left_cancel a b c same := by
    have parts := Holdings.ext_iff.1 same
    ext1
    · exact add_left_cancel parts.1
    · exact add_left_cancel parts.2.1
    · exact add_left_cancel parts.2.2
  nsmul := nsmulRec

def ofRows (rows : Multiset RowId) : Holdings :=
  ⟨rows, 0, 0⟩

def ofColumns (columns : Multiset ColumnId) : Holdings :=
  ⟨0, columns, 0⟩

def ofBases (bases : Multiset BasisId) : Holdings :=
  ⟨0, 0, bases⟩

theorem ofRows_add (a b : Multiset RowId) : ofRows (a + b) = ofRows a + ofRows b :=
  rfl

theorem ofColumns_add (a b : Multiset ColumnId) : ofColumns (a + b) = ofColumns a + ofColumns b :=
  rfl

end Holdings

namespace Relaxation

/-- Every user of a registered object is accounted for: it is loaded, or held outside. -/
structure Balanced (lp : Relaxation) (owed : Holdings) : Prop where
  rows : lp.rows.Balanced (owed.rows + lp.loadedRows)
  columns : lp.columns.Balanced (owed.columns + lp.loadedColumns)
  bases : lp.bases.Balanced owed.bases
  positions : Mirrors lp.rowPositions lp.loadedRows
  members : ∀ column, column ∈ lp.columnSet ↔ column ∈ lp.loadedColumns
  distinct : lp.loadedColumns.Nodup

variable {lp : Relaxation} {owed : Holdings}

theorem balanced_empty : empty.Balanced 0 where
  rows := Registry.balanced_empty
  columns := Registry.balanced_empty
  bases := Registry.balanced_empty
  positions := Mirrors.empty
  members column := by simp [empty]
  distinct := List.nodup_nil

namespace Balanced

theorem isRowLoaded_iff (balanced : lp.Balanced owed) (row : RowId) :
    lp.isRowLoaded row = true ↔ row ∈ lp.loadedRows :=
  balanced.positions.contains_iff

theorem isColumnLoaded_iff (balanced : lp.Balanced owed) (column : ColumnId) :
    lp.isColumnLoaded column = true ↔ column ∈ lp.loadedColumns :=
  Std.TreeSet.contains_iff_mem.trans (balanced.members column)

/-- Rows that are taken off the loaded ones are owed from then on. -/
theorem unload (balanced : lp.Balanced owed) {row : RowId} {remaining : List RowId}
    (moved : (lp.loadedRows : Multiset RowId) = row ::ₘ remaining)
    {positions : Std.TreeMap RowId Nat} (mirrors : Mirrors positions remaining) :
    ({ lp with loadedRows := remaining, rowPositions := positions } : Relaxation).Balanced
      (owed + .ofRows {row}) := by
  refine ⟨?_, ?_, ?_, mirrors, balanced.members, balanced.distinct⟩
  · have rows := balanced.rows
    rw [moved, ← Multiset.singleton_add, ← add_assoc] at rows
    exact rows
  · rw [Holdings.columns_add]
    exact (add_zero owed.columns).symm ▸ balanced.columns
  · rw [Holdings.bases_add]
    exact (add_zero owed.bases).symm ▸ balanced.bases

/-- The registry of rows may be exchanged for one that is balanced against other rows. -/
theorem withRows (balanced : lp.Balanced owed) {registry : Registry .row Row} {owed' : Holdings}
    (rows : registry.Balanced (owed'.rows + lp.loadedRows))
    (columns : owed'.columns = owed.columns) (bases : owed'.bases = owed.bases) :
    ({ lp with rows := registry } : Relaxation).Balanced owed' :=
  ⟨rows, columns ▸ balanced.columns, bases ▸ balanced.bases, balanced.positions,
    balanced.members, balanced.distinct⟩

/-- The registry of columns may be exchanged for one that is balanced against other columns. -/
theorem withColumns (balanced : lp.Balanced owed) {registry : Registry .column Column}
    {owed' : Holdings} (columns : registry.Balanced (owed'.columns + lp.loadedColumns))
    (rows : owed'.rows = owed.rows) (bases : owed'.bases = owed.bases) :
    ({ lp with columns := registry } : Relaxation).Balanced owed' :=
  ⟨rows ▸ balanced.rows, columns, bases ▸ balanced.bases, balanced.positions,
    balanced.members, balanced.distinct⟩

/-- The registry of bases may be exchanged for one that is balanced against other bases. -/
theorem withBases (balanced : lp.Balanced owed) {registry : Registry .basis Basis}
    {owed' : Holdings} (bases : registry.Balanced owed'.bases)
    (rows : owed'.rows = owed.rows) (columns : owed'.columns = owed.columns) :
    ({ lp with bases := registry } : Relaxation).Balanced owed' :=
  ⟨rows ▸ balanced.rows, columns ▸ balanced.columns, bases, balanced.positions,
    balanced.members, balanced.distinct⟩

/-! The users before and after differ by what is held in between, and by what is loaded. -/

section Users

variable {lp' : Relaxation} {owed' gained lost : Holdings}

theorem users_rows (before : lp.Balanced owed) (after : lp'.Balanced owed')
    (moved : owed' + lost = owed + gained) (row : RowId) :
    lp'.rows.users row + lost.rows.count row + lp.loadedRows.count row =
      lp.rows.users row + gained.rows.count row + lp'.loadedRows.count row := by
  have counts := congrArg (fun held : Holdings => held.rows.count row) moved
  simp only [Holdings.rows_add, Multiset.count_add] at counts
  rw [before.rows.count, after.rows.count, Multiset.count_add, Multiset.count_add,
    Multiset.coe_count, Multiset.coe_count]
  omega

theorem users_columns (before : lp.Balanced owed) (after : lp'.Balanced owed')
    (moved : owed' + lost = owed + gained) (column : ColumnId) :
    lp'.columns.users column + lost.columns.count column + lp.loadedColumns.count column =
      lp.columns.users column + gained.columns.count column +
        lp'.loadedColumns.count column := by
  have counts := congrArg (fun held : Holdings => held.columns.count column) moved
  simp only [Holdings.columns_add, Multiset.count_add] at counts
  rw [before.columns.count, after.columns.count, Multiset.count_add, Multiset.count_add,
    Multiset.coe_count, Multiset.coe_count]
  omega

theorem users_bases (before : lp.Balanced owed) (after : lp'.Balanced owed')
    (moved : owed' + lost = owed + gained) (basis : BasisId) :
    lp'.bases.users basis + lost.bases.count basis =
      lp.bases.users basis + gained.bases.count basis := by
  have counts := congrArg (fun held : Holdings => held.bases.count basis) moved
  simp only [Holdings.bases_add, Multiset.count_add] at counts
  rw [before.bases.count, after.bases.count]
  omega

end Users

end Balanced

end Relaxation

end BranchCutPrice
