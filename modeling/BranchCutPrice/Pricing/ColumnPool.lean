import BranchCutPrice.Pool.Scan
import BranchCutPrice.Pricing.Round

/-! The pool of generated columns that are not loaded and may improve the relaxation. -/

namespace BranchCutPrice

/-- What columns are priced against: the duals of a solution, or the proof that
there is none. -/
inductive PricingMode where
  | reducedCost
  | farkas
  deriving DecidableEq, Repr

structure ColumnPool where
  pool : Pool .column Column
  /-- The negated value from which on a column is useful. -/
  tolerance : Float

namespace ColumnPool

def ofSettings (settings : PoolSettings) : Except Error ColumnPool := do
  let pool := Pool.empty (Column.key settings.dedupTolerance) settings.ageLimit
  return ⟨← pool.reserve settings.capacity, settings.tolerance⟩

/-- The pool with the registered columns. -/
def stockPart : Part (Linked ColumnPool) (Stock .column Column) where
  get s := ⟨s.own.pool, s.lp.columns⟩
  set s stock := ⟨{ s.own with pool := stock.pool }, { s.lp with columns := stock.registry }⟩

/-- Adds a column unless an equal one is pooled. Gives the pooled one, and whether
it was there before. -/
def add (column : ColumnId) : Action (Linked ColumnPool) (ColumnId × Bool) :=
  stockPart.run (Stock.addIfNew column)

/-- Adds a column without looking for an equal one. -/
def addNew (column : ColumnId) : Action (Linked ColumnPool) Unit :=
  stockPart.run (Stock.add column)

/-- Takes out the column that is equal to the given one. -/
def remove (column : ColumnId) : Action (Linked ColumnPool) Unit :=
  stockPart.run (Stock.remove column)

def contains (s : Linked ColumnPool) (column : ColumnId) : Except Error Bool :=
  s.own.pool.contains s.lp.columns column

/-- The value of a column under the installed duals or proof. -/
def value (lp : Relaxation) (mode : PricingMode) (column : Column) : Float :=
  match mode with
  | .reducedCost => column.reducedCost lp.duals
  | .farkas => column.farkasValue lp.farkas

/-- A column that is not loaded is useful if its value is negative enough. -/
def check (lp : Relaxation) (mode : PricingMode) (tolerance : Float) (handle : ColumnId)
    (column : Column) : Verdict :=
  if lp.isColumnLoaded handle then .loaded
  else
    let value := value lp mode column
    if value < -tolerance then .useful value else .useless

/-- Scans the pool for columns that improve the relaxation. -/
def scan (mode : PricingMode) : Action (Linked ColumnPool) (Survey .column) := do
  let s ← get
  stockPart.run (Stock.scan s.lp.solutions fun _ => check s.lp mode s.own.tolerance)

/-- Hands the pooled columns that improve the relaxation to a round. Those that
refute a proof of infeasibility are forced. -/
def price (mode : PricingMode) : Action (Linked (ColumnPool × PricingRound)) Finding := do
  let survey ← onLeft (scan mode)
  survey.useful.forM fun (column, value) =>
    onRight (PricingRound.add column value (mode = .farkas))
  return survey.finding

def clear : Action (Linked ColumnPool) Unit :=
  stockPart.run Stock.clear

end ColumnPool

end BranchCutPrice
