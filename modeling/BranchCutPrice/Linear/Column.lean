import BranchCutPrice.Linear.Sparse

/-! Columns: variables of the master problem with their constraint coefficients. -/

namespace BranchCutPrice

structure Column where
  name : String
  objective : Float
  lower : Float
  upper : Float
  coefs : SparseVec
  /-- Whether the column may still change. -/
  modifiable : Bool
  deriving DecidableEq, Repr

namespace Column

/-- Builds a column over `constraints` constraints. An objective that is not
finite and bounds that are undefined or crossed are refused before the
coefficients are looked at. -/
def ofEntries (name : String) (objective lower upper : Float) (constraints : Nat)
    (entries : List (Nat × Float)) : Except Error Column :=
  if !objective.isFinite || lower.isNaN || upper.isNaN || upper < lower then
    .error (.invalid (.invalidColumn name))
  else do
    let coefs ← SparseVec.ofEntries name constraints entries
    return ⟨name, objective, lower, upper, coefs, false⟩

def norm (column : Column) : Float :=
  column.coefs.norm

/-- The objective minus the value of the column under the duals. -/
def reducedCost (column : Column) (duals : Array Float) : Float :=
  column.objective - column.coefs.activity duals

/-- The reduced cost under a proof of infeasibility, where the objective is zero. -/
def farkasValue (column : Column) (proof : Array Float) : Float :=
  -column.coefs.activity proof

/-- The cosine between the column, objective included, and the objective axis. -/
def objectiveParallelism (column : Column) : Float :=
  let full := (column.objective * column.objective + column.norm * column.norm).sqrt
  if Double.normFloor < full then column.objective.abs / full else 0.0

/-- One minus the cosine between the coefficients of two columns. A column
without direction is orthogonal to all. -/
def orthogonality (left right : Column) : Float :=
  let scale := left.norm * right.norm
  if scale ≤ Double.normFloor then 1.0
  else 1.0 - (left.coefs.dot right.coefs / scale).abs

/-- Whether two columns agree up to the tolerance. Names do not count. -/
def sameColumn (left right : Column) (tolerance : Float) : Bool :=
  left.coefs.entries.length == right.coefs.entries.length &&
    !(tolerance < (left.objective - right.objective).abs) &&
    Double.close left.lower right.lower tolerance &&
    Double.close left.upper right.upper tolerance &&
    left.coefs.near right.coefs tolerance

/-- A hash that equal columns share. -/
def structuralHash (column : Column) : UInt64 :=
  (column.coefs.entries.length.toUInt64 <<< 40) ^^^
    (column.coefs.firstIndex.toUInt64 <<< 20) ^^^ column.coefs.lastIndex.toUInt64

end Column

end BranchCutPrice
