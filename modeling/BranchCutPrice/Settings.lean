import BranchCutPrice.Numeric.Double

/-! Parameters of the search and their default values. -/

namespace BranchCutPrice

/-- Which leaf is taken up next. -/
inductive Selection where
  | bestBound
  | depthFirst
  /-- Every `period`-th leaf taken up starts a dive; zero never dives. -/
  | hybrid (period : Nat)
  deriving DecidableEq, Repr

/-- When a solved node stores its complete row list. -/
structure SubrootPolicy where
  /-- The number of nodes without a complete list in a row that calls for one;
  zero switches the rule off. -/
  maxForkChain : Nat := 8
  /-- The share of the loaded rows that may come from such nodes. -/
  maxDeltaRatio : Float := 0.5
  /-- The share only counts from this many loaded rows on. -/
  minRowsForRatio : Nat := 16
  deriving DecidableEq, Repr

namespace SubrootPolicy

/-- No row list is ever stored for the sake of shorter walks. -/
def never : SubrootPolicy :=
  ⟨0, Double.infinity, 0xffffffffffffffff⟩

def shouldFlatten (policy : SubrootPolicy) (forkChain deltaRows loadedRows : Nat) : Bool :=
  (0 < policy.maxForkChain && policy.maxForkChain ≤ forkChain) ||
    (policy.minRowsForRatio ≤ loadedRows &&
      policy.maxDeltaRatio * Float.ofNat loadedRows < Float.ofNat deltaRows)

end SubrootPolicy

structure TreeSettings where
  selection : Selection := .bestBound
  policy : SubrootPolicy := {}
  deriving DecidableEq, Repr

structure PoolSettings where
  /-- The number of useless checks in a row that an entry survives. -/
  ageLimit : Nat := 100
  /-- The violation, or negated reduced cost, that makes an entry useful. -/
  tolerance : Float := 1e-6
  /-- The distance within which two entries count as equal. -/
  dedupTolerance : Float := 1e-9
  capacity : Nat := 64
  deriving DecidableEq, Repr

structure PricingSettings where
  /-- A column less orthogonal than this to an admitted one is penalized. -/
  minOrthogonality : Float := 0.0
  efficacyWeight : Float := 1.0
  parallelismWeight : Float := 0.0
  orthogonalityWeight : Float := 0.0
  parallelPenalty : Float := 1e3
  /-- The number of columns admitted in a round besides the forced ones. -/
  maxColumns : Nat := 100
  /-- A column is efficacious if its reduced cost is below the negation of this. -/
  tolerance : Float := 1e-6
  deriving DecidableEq, Repr

structure SessionSettings where
  tree : TreeSettings := {}
  cutPool : PoolSettings := {}
  columnPool : PoolSettings := { ageLimit := 10 }
  pricing : PricingSettings := {}
  maxCutsPerRound : Nat := 100
  /-- Whether progress is reported, every `logPeriod` nodes. -/
  verbose : Bool := false
  logPeriod : Nat := 100
  deriving DecidableEq, Repr

/-- Progress is reported at every node. -/
def SessionSettings.talkative : SessionSettings :=
  { verbose := true, logPeriod := 1 }

end BranchCutPrice
