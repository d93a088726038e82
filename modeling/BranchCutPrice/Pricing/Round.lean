import BranchCutPrice.Numeric.Ranking
import BranchCutPrice.Relaxation
import BranchCutPrice.Settings

/-!
A pricing round collects columns, scores them, and loads the best of them. A
column loses score as columns that it is nearly parallel to are admitted. The
store is a user of every column in it.
-/

namespace BranchCutPrice

structure PricedColumn where
  column : ColumnId
  /-- The reduced cost, or Farkas value, that the column was priced with. -/
  reducedCost : Float
  /-- The negated reduced cost in units of the norm. -/
  efficacy : Float
  /-- The parallelism to the objective. -/
  parallelism : Float
  /-- The least orthogonality to the columns admitted in the round, at most one. -/
  orthogonality : Float
  /-- Whether it was too parallel to one of them. -/
  tooParallel : Bool
  score : Float
  deriving DecidableEq, Repr

namespace PricedColumn

/-- The weighted sum of the marks of a column, less the penalty. -/
def scored (settings : PricingSettings) (priced : PricedColumn) : PricedColumn :=
  let total := settings.efficacyWeight * priced.efficacy +
    settings.parallelismWeight * priced.parallelism +
    settings.orthogonalityWeight * priced.orthogonality
  { priced with
    score := if priced.tooParallel then total - settings.parallelPenalty else total }

/-- A column as it is when nothing is admitted yet. -/
def ofColumn (settings : PricingSettings) (handle : ColumnId) (column : Column)
    (reducedCost : Float) : PricedColumn :=
  let gain := -reducedCost
  scored settings {
    column := handle
    reducedCost := reducedCost
    efficacy := if Double.normFloor < column.norm then gain / column.norm else gain
    parallelism := column.objectiveParallelism
    orthogonality := 1.0
    tooParallel := false
    score := 0.0 }

/-- Accounts for another admitted column with this orthogonality. -/
def beside (settings : PricingSettings) (orthogonality : Float) (priced : PricedColumn) :
    PricedColumn :=
  scored settings { priced with
    orthogonality := Double.least priced.orthogonality orthogonality
    tooParallel := priced.tooParallel || orthogonality < settings.minOrthogonality }

def before (left right : PricedColumn) : Bool :=
  Double.rank (.ofFloat right.score) < Double.rank (.ofFloat left.score)

end PricedColumn

/-- What a pricing round comes to. -/
structure RoundResult where
  added : Nat
  forced : Nat
  efficacious : Nat
  deriving DecidableEq, Repr

structure PricingRound where
  /-- Columns admitted regardless of their score. -/
  forced : List PricedColumn
  /-- The other columns, the best one first. -/
  waiting : List PricedColumn
  /-- Those among them that were admitted. -/
  selected : List PricedColumn
  /-- The number of columns stored with a sufficiently negative reduced cost. -/
  efficacious : Nat
  settings : PricingSettings
  deriving DecidableEq, Repr

namespace PricingRound

def empty (settings : PricingSettings) : PricingRound :=
  ⟨[], [], [], 0, settings⟩

/-- All columns in the store. -/
def stored (round : PricingRound) : List PricedColumn :=
  round.forced ++ round.waiting ++ round.selected

def size (round : PricingRound) : Nat :=
  round.stored.length

def contains (round : PricingRound) (column : ColumnId) : Bool :=
  round.stored.any (·.column == column)

/-- Puts a column in its place, behind those that score at least as high. -/
def place (round : PricingRound) (priced : PricedColumn) (forced : Bool) : PricingRound :=
  let round := { round with
    efficacious := if priced.reducedCost < -round.settings.tolerance
      then round.efficacious + 1 else round.efficacious }
  if forced then { round with forced := round.forced ++ [priced] }
  else
    let position := Ranking.partitionPoint (fun other => priced.score ≤ other.score) round.waiting
    { round with waiting := Ranking.insertAt round.waiting position priced }

/-- Stores a column and captures it. A column stored before is left as it is. -/
def add (handle : ColumnId) (reducedCost : Float) (forced : Bool) :
    Action (Linked PricingRound) Unit := do
  if (← get).own.contains handle then pure ()
  else
    let column ← Action.read (·.lp.columns.get handle)
    onLp (Relaxation.captureColumn handle)
    onOwn (modify fun round =>
      round.place (.ofColumn round.settings handle column reducedCost) forced)

/-- Accounts for an admitted column in columns that wait, up to the first stale one. -/
def besideAll (settings : PricingSettings) (columns : Registry .column Column)
    (admitted : Column) : List PricedColumn → Except Error Unit × List PricedColumn
  | [] => (.ok (), [])
  | priced :: rest =>
      match columns.get priced.column with
      | .error e => (.error e, priced :: rest)
      | .ok column =>
          let (result, others) := besideAll settings columns admitted rest
          (result, priced.beside settings (admitted.orthogonality column) :: others)

/-- Rescores and reorders the waiting columns after a column was admitted. -/
def updateOrthogonality (admitted : ColumnId) : Action (Linked PricingRound) Unit := do
  let s ← get
  let column ← Action.read (·.lp.columns.get admitted)
  let (result, waiting) := besideAll s.own.settings s.lp.columns column s.own.waiting
  onOwn (modify fun round => { round with waiting := waiting })
  Action.resume result
  onOwn (modify fun round =>
    { round with waiting := Ranking.sort PricedColumn.before round.waiting })

/-- Loads the forced columns in order, leaving out the loaded ones. Gives their number. -/
def admitForced : List PricedColumn → Action (Linked PricingRound) Nat
  | [] => pure 0
  | priced :: rest => do
      if (← get).lp.isColumnLoaded priced.column then admitForced rest
      else
        onLp (Relaxation.loadColumn priced.column)
        updateOrthogonality priced.column
        let more ← admitForced rest
        return more + 1

/-- Loads and selects a column that was taken off the waiting ones. -/
def admitBest (best : PricedColumn) : Action (Linked PricingRound) Unit := do
  Action.emit (.columnAdmitted best.column best.score)
  onLp (Relaxation.loadColumn best.column)
  onOwn (modify fun round => { round with selected := round.selected ++ [best] })
  updateOrthogonality best.column

/-- Loads the best waiting column up to `quota` times, leaving out the loaded
ones. Every step takes one column off the waiting ones, so `steps` may be their
number. Gives the number of columns loaded. -/
def admitWaiting : (steps quota : Nat) → Action (Linked PricingRound) Nat
  | 0, _ => pure 0
  | _, 0 => pure 0
  | steps + 1, quota + 1 => do
      match (← get).own.waiting with
      | [] => return 0
      | best :: rest =>
          onOwn (modify fun round => { round with waiting := rest })
          if (← get).lp.isColumnLoaded best.column then admitWaiting steps (quota + 1)
          else
            admitBest best
            let more ← admitWaiting steps quota
            return more + 1

/-- Loads the forced columns, then up to `quota` of the others. -/
def admitAll (quota : Nat) : Action (Linked PricingRound) RoundResult := do
  let round := (← get).own
  let forced ← admitForced round.forced
  let others ← admitWaiting (← get).own.waiting.length quota
  return ⟨forced + others, forced, round.efficacious⟩

/-- Empties the store, then releases its columns up to the first stale one. -/
def clear : Action (Linked PricingRound) Unit := do
  let columns := (← get).own.stored.map PricedColumn.column
  onOwn (modify fun round => empty round.settings)
  onLp (Relaxation.releaseColumns columns)

/-- Loads the forced columns and up to `quota` others, the best ones first, and
empties the store whatever happens. -/
def selectBest (quota : Nat) : Action (Linked PricingRound) RoundResult := do
  let result ← Action.attempt (admitAll quota)
  clear
  let result ← Action.resume result
  Action.emit (.roundAdmitted result.added result.forced result.efficacious)
  return result

end PricingRound

end BranchCutPrice
