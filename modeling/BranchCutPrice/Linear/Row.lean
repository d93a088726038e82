import BranchCutPrice.Linear.Sparse

/-! Linear rows `lhs ≤ a x ≤ rhs`: constraints and cutting planes. -/

namespace BranchCutPrice

structure Row where
  name : String
  coefs : SparseVec
  lhs : Float
  rhs : Float
  /-- Whether column generation may still change the row. -/
  modifiable : Bool
  deriving DecidableEq, Repr

namespace Row

/-- Builds a row over `columns` columns. Sides that are undefined or crossed are
refused before the coefficients are looked at. -/
def ofEntries (name : String) (columns : Nat) (entries : List (Nat × Float))
    (lhs rhs : Float) : Except Error Row :=
  if lhs.isNaN || rhs.isNaN || rhs < lhs then .error (.invalid (.invalidSides name lhs rhs))
  else do
    let coefs ← SparseVec.ofEntries name columns entries
    return ⟨name, coefs, lhs, rhs, false⟩

/-- The number of nonzero coefficients. -/
def size (row : Row) : Nat :=
  row.coefs.entries.length

/-- The largest magnitude of a coefficient. -/
def peak (row : Row) : Float :=
  row.coefs.values.foldl (fun largest a => Double.greatest largest a.abs) 0.0

/-- How many coefficients have the largest magnitude, up to rounding. -/
def peakCount (row : Row) : Nat :=
  let slack := 1e-12 * Double.greatest row.peak 1.0
  row.coefs.values.countP fun a => (a.abs - row.peak).abs ≤ slack

def norm (row : Row) : Float :=
  row.coefs.norm

/-- The value of `a x`. -/
def activity (row : Row) (x : Array Float) : Float :=
  row.coefs.activity x

/-- The distance to the nearer side, negative if the row is violated. -/
def feasibility (row : Row) (x : Array Float) : Float :=
  let activity := row.activity x
  Double.least (row.rhs - activity) (activity - row.lhs)

/-- The violation in units of the norm. -/
def efficacy (row : Row) (x : Array Float) : Float :=
  let violation := -row.feasibility x
  if Double.normFloor < row.norm then violation / row.norm else violation

/-- Whether two rows cut off the same points up to the tolerance. Names do not count. -/
def sameCut (left right : Row) (tolerance : Float) : Bool :=
  left.size == right.size &&
    left.coefs.firstIndex == right.coefs.firstIndex &&
    left.coefs.lastIndex == right.coefs.lastIndex &&
    left.peakCount == right.peakCount &&
    Double.close left.lhs right.lhs tolerance &&
    Double.close left.rhs right.rhs tolerance &&
    left.coefs.near right.coefs tolerance

/-- A hash that equal cuts share. -/
def structuralHash (row : Row) : UInt64 :=
  (row.peakCount.toUInt64 <<< 48) ^^^ (row.size.toUInt64 <<< 32) ^^^
    (row.coefs.firstIndex.toUInt64 <<< 16) ^^^ row.coefs.lastIndex.toUInt64

end Row

end BranchCutPrice
