import BranchCutPrice.Action
import BranchCutPrice.Numeric.Double

/-! The best solution found so far, whose objective cuts off the search. -/

namespace BranchCutPrice

/-- The distance of two bounds relative to the first one. -/
def relativeGap (primal dual : Float) : Float :=
  if primal.isInf || dual.isInf then Double.infinity
  else (primal - dual).abs / Double.greatest primal.abs 1e-10

structure Incumbent where
  solution : Option (Array Float)
  /-- The objective of the solution, infinite if there is none. -/
  objective : Float
  updates : Nat
  deriving DecidableEq, Repr

namespace Incumbent

def empty : Incumbent :=
  ⟨none, Double.infinity, 0⟩

/-- Whether an objective is better than the incumbent by more than rounding. -/
def improvedBy (incumbent : Incumbent) (objective : Float) : Bool :=
  objective < incumbent.objective - Double.boundSlack

/-- Takes a solution over if it is better, and says whether it is. -/
def update (solution : Array Float) (objective : Float) : Action Incumbent Bool :=
  modifyGet fun incumbent =>
    if incumbent.improvedBy objective then
      (true, ⟨some solution, objective, incumbent.updates + 1⟩)
    else (false, incumbent)

/-- Leaves whose bounds reach this hold no better solution. -/
def cutoff (incumbent : Incumbent) : Float :=
  incumbent.objective

def gap (incumbent : Incumbent) (bound : Float) : Float :=
  relativeGap incumbent.objective bound

end Incumbent

end BranchCutPrice
