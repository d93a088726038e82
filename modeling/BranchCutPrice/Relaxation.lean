import BranchCutPrice.Action
import BranchCutPrice.Linear.Basis
import BranchCutPrice.Linear.Column
import BranchCutPrice.Linear.Row
import BranchCutPrice.Slot.Registry

/-!
The live linear relaxation: the registered rows, columns and bases, which of them
are loaded, and the solution installed last. Solving happens elsewhere. Every
loaded row and column is a user of the registered object.
-/

namespace BranchCutPrice

structure Relaxation where
  rows : Registry .row Row
  columns : Registry .column Column
  bases : Registry .basis Basis
  /-- The loaded rows in order. -/
  loadedRows : List RowId
  /-- The position of each loaded row. -/
  rowPositions : Std.TreeMap RowId Nat
  /-- The loaded columns in order. -/
  loadedColumns : List ColumnId
  /-- The loaded columns as a set. -/
  columnSet : Std.TreeSet ColumnId
  primal : Array Float
  duals : Array Float
  /-- The proof of infeasibility, empty if a solution is installed. -/
  farkas : Array Float
  objective : Float
  /-- The number of solutions and proofs installed so far, which names the last one. -/
  solutions : Nat
  basis : Basis

/-- A structure together with the relaxation whose objects it refers to. -/
structure Linked (τ : Type) where
  own : τ
  lp : Relaxation

namespace Linked

variable {τ : Type}

def ownPart : Part (Linked τ) τ where
  get s := s.own
  set s own := { s with own := own }

def lpPart : Part (Linked τ) Relaxation where
  get s := s.lp
  set s lp := { s with lp := lp }

end Linked

/-- Runs an action on the first of two structures and the relaxation. -/
def onLeft {τ υ α : Type} (act : Action (Linked τ) α) : Action (Linked (τ × υ)) α :=
  Part.run {
    get := fun s => ⟨s.own.1, s.lp⟩
    set := fun s left => ⟨(left.own, s.own.2), left.lp⟩ } act

/-- Runs an action on the second of two structures and the relaxation. -/
def onRight {τ υ α : Type} (act : Action (Linked υ) α) : Action (Linked (τ × υ)) α :=
  Part.run {
    get := fun s => ⟨s.own.2, s.lp⟩
    set := fun s right => ⟨(s.own.1, right.own), right.lp⟩ } act

/-- Runs an action on the relaxation beside a structure. -/
def onLp {τ α : Type} (act : Action Relaxation α) : Action (Linked τ) α :=
  Linked.lpPart.run act

/-- Runs an action on the structure beside a relaxation. -/
def onOwn {τ α : Type} (act : Action τ α) : Action (Linked τ) α :=
  Linked.ownPart.run act

namespace Relaxation

def empty : Relaxation where
  rows := .empty
  columns := .empty
  bases := .empty
  loadedRows := []
  rowPositions := ∅
  loadedColumns := []
  columnSet := ∅
  primal := #[]
  duals := #[]
  farkas := #[]
  objective := Double.negInfinity
  solutions := 0
  basis := .empty

/-! ### Users -/

def createRow (row : Row) : Action Relaxation RowId :=
  modifyGet fun lp =>
    let (handle, rows) := lp.rows.insert row
    (handle, { lp with rows := rows })

def createColumn (column : Column) : Action Relaxation ColumnId :=
  modifyGet fun lp =>
    let (handle, columns) := lp.columns.insert column
    (handle, { lp with columns := columns })

def createBasis (basis : Basis) : Action Relaxation BasisId :=
  modifyGet fun lp =>
    let (handle, bases) := lp.bases.insert basis
    (handle, { lp with bases := bases })

/-- Registers a copy of the current basis. -/
def snapshotBasis : Action Relaxation BasisId := do
  createBasis (← get).basis

def setBasis (basis : Basis) : Action Relaxation Unit :=
  modify fun lp => { lp with basis := basis }

def captureRow (row : RowId) : Action Relaxation Unit :=
  .change fun lp => do return { lp with rows := ← lp.rows.capture row }

def captureColumn (column : ColumnId) : Action Relaxation Unit :=
  .change fun lp => do return { lp with columns := ← lp.columns.capture column }

def captureBasis (basis : BasisId) : Action Relaxation Unit :=
  .change fun lp => do return { lp with bases := ← lp.bases.capture basis }

def releaseRow (row : RowId) : Action Relaxation Unit :=
  .change fun lp => do return { lp with rows := (← lp.rows.release row).2 }

def releaseColumn (column : ColumnId) : Action Relaxation Unit :=
  .change fun lp => do return { lp with columns := (← lp.columns.release column).2 }

def releaseBasis (basis : BasisId) : Action Relaxation Unit :=
  .change fun lp => do return { lp with bases := (← lp.bases.release basis).2 }

/-- Captures rows in order, up to the first stale one. -/
def captureRows (rows : List RowId) : Action Relaxation Unit :=
  rows.forM captureRow

/-- Releases rows in order, up to the first stale one. -/
def releaseRows (rows : List RowId) : Action Relaxation Unit :=
  rows.forM releaseRow

/-- Releases columns in order, up to the first stale one. -/
def releaseColumns (columns : List ColumnId) : Action Relaxation Unit :=
  columns.forM releaseColumn

/-! ### Loaded rows -/

def isRowLoaded (lp : Relaxation) (row : RowId) : Bool :=
  lp.rowPositions.contains row

/-- Loads a row behind the others and captures it. -/
def loadRow (row : RowId) : Action Relaxation Unit :=
  .change fun lp =>
    if lp.isRowLoaded row then .error (.invalid (.alreadyLoaded .row row))
    else do
      let rows ← lp.rows.capture row
      return { lp with
        rows := rows
        rowPositions := lp.rowPositions.insert row lp.loadedRows.length
        loadedRows := lp.loadedRows ++ [row] }

/-- Records the positions of rows that stand in a list from `position` on. -/
def renumber (positions : Std.TreeMap RowId Nat) (position : Nat) :
    List RowId → Std.TreeMap RowId Nat
  | [] => positions
  | row :: rest => renumber (positions.insert row position) (position + 1) rest

/-- Takes a row off the loaded ones; those behind it move up. -/
def dropRow (lp : Relaxation) (row : RowId) (position : Nat) : Relaxation :=
  let remaining := lp.loadedRows.eraseIdx position
  { lp with
    loadedRows := remaining
    rowPositions := renumber (lp.rowPositions.erase row) position (remaining.drop position) }

/-- Unloads a row and releases it. The row is off the list even if its release
is refused. -/
def unloadRow (row : RowId) : Action Relaxation Unit := do
  match (← get).rowPositions[row]? with
  | none => throw (.invalid (.notLoaded .row row))
  | some position =>
      modify (·.dropRow row position)
      releaseRow row

/-- Unloads the last row, which is `row`, and releases it. -/
def unloadLast (row : RowId) : Action Relaxation Unit := do
  modify fun lp => { lp with
    loadedRows := lp.loadedRows.dropLast
    rowPositions := lp.rowPositions.erase row }
  releaseRow row

/-- Unloads all rows from a position on, the last one first. -/
def shrinkRows (length : Nat) : Action Relaxation Unit := do
  ((← get).loadedRows.drop length).reverse.forM unloadLast

/-! ### Loaded columns -/

def isColumnLoaded (lp : Relaxation) (column : ColumnId) : Bool :=
  lp.columnSet.contains column

/-- Loads a column behind the others and captures it. -/
def loadColumn (column : ColumnId) : Action Relaxation Unit :=
  .change fun lp =>
    if lp.isColumnLoaded column then .error (.invalid (.alreadyLoaded .column column))
    else do
      let columns ← lp.columns.capture column
      return { lp with
        columns := columns
        columnSet := lp.columnSet.insert column
        loadedColumns := lp.loadedColumns ++ [column] }

/-- Takes a column out of the set of loaded ones and releases it. -/
def forgetColumn (column : ColumnId) : Action Relaxation Unit := do
  modify fun lp => { lp with columnSet := lp.columnSet.erase column }
  releaseColumn column

/-- Unloads every row and column. The column list is emptied at once, the set
column by column. -/
def clear : Action Relaxation Unit := do
  shrinkRows 0
  let columns := (← get).loadedColumns
  modify fun lp => { lp with loadedColumns := [] }
  columns.forM forgetColumn

/-! ### Solutions -/

/-- Installs the solution of the loaded relaxation and gives its number. -/
def installSolution (primal duals : Array Float) (objective : Float) : Action Relaxation Nat :=
  modifyGet fun lp => (lp.solutions + 1, { lp with
    primal := primal
    duals := duals
    farkas := #[]
    objective := objective
    solutions := lp.solutions + 1 })

/-- Installs a proof that the loaded relaxation is infeasible and gives its number. -/
def installFarkas (proof : Array Float) : Action Relaxation Nat :=
  modifyGet fun lp => (lp.solutions + 1, { lp with
    primal := #[]
    duals := #[]
    farkas := proof
    objective := Double.infinity
    solutions := lp.solutions + 1 })

/-- The feasibility of a row at the installed solution. -/
def rowFeasibility (lp : Relaxation) (row : RowId) : Except Error Float := do
  return (← lp.rows.get row).feasibility lp.primal

end Relaxation

end BranchCutPrice
