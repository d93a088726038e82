/-! Simplex bases, kept as warm starts. -/

namespace BranchCutPrice

/-- Where a row or column stands in a basis: basic, or nonbasic at a bound or at zero. -/
inductive BasisStatus where
  | lower
  | basic
  | upper
  | zero
  deriving DecidableEq, Repr

structure Basis where
  columns : List BasisStatus
  rows : List BasisStatus
  deriving DecidableEq, Repr

namespace Basis

def empty : Basis :=
  ⟨[], []⟩

def basicCount (basis : Basis) : Nat :=
  (basis.columns ++ basis.rows).countP (· == .basic)

end Basis

end BranchCutPrice
