import BranchCutPrice.Pool.Scan
import BranchCutPrice.Separation.Round

/-!
The pool of globally valid cuts that are not loaded, or not any more, and may be
violated again.
-/

namespace BranchCutPrice

structure CutPool where
  pool : Pool .row Row
  /-- The violation from which on a cut is useful. -/
  tolerance : Float

namespace CutPool

def ofSettings (settings : PoolSettings) : Except Error CutPool := do
  let pool := Pool.empty (Row.key settings.dedupTolerance) settings.ageLimit
  return ⟨← pool.reserve settings.capacity, settings.tolerance⟩

/-- The pool with the registered rows. -/
def stockPart : Part (Linked CutPool) (Stock .row Row) where
  get s := ⟨s.own.pool, s.lp.rows⟩
  set s stock := ⟨{ s.own with pool := stock.pool }, { s.lp with rows := stock.registry }⟩

/-- Adds a cut unless an equal one is pooled. Gives the pooled one, and whether it
was there before. -/
def add (row : RowId) : Action (Linked CutPool) (RowId × Bool) := do
  let (stored, duplicate) ← stockPart.run (Stock.addIfNew row)
  Action.emitIf duplicate (.duplicateCut row stored)
  return (stored, duplicate)

/-- Adds a cut without looking for an equal one. -/
def addNew (row : RowId) : Action (Linked CutPool) Unit :=
  stockPart.run (Stock.add row)

/-- Takes out the cut that is equal to a row. -/
def remove (row : RowId) : Action (Linked CutPool) Unit :=
  stockPart.run (Stock.remove row)

def contains (s : Linked CutPool) (row : RowId) : Except Error Bool :=
  s.own.pool.contains s.lp.rows row

/-- The entry of the cut that is equal to a row. -/
def entryOf (s : Linked CutPool) (row : RowId) : Except Error (Option (PoolEntry .row)) :=
  s.own.pool.entryOf s.lp.rows row

/-- A cut that is not loaded is useful if the installed solution violates it. -/
def check (lp : Relaxation) (tolerance : Float) (handle : RowId) (row : Row) : Verdict :=
  if lp.isRowLoaded handle then .loaded
  else if row.feasibility lp.primal < -tolerance then .useful (row.efficacy lp.primal)
  else .useless

/-- Scans the pool for cuts that the installed solution violates. -/
def scan : Action (Linked CutPool) (Survey .row) := do
  let s ← get
  stockPart.run (Stock.scan s.lp.solutions fun _ => check s.lp s.own.tolerance)

/-- Hands the pooled cuts that the installed solution violates to a round. -/
def separate : Action (Linked (CutPool × SeparationRound)) Finding := do
  let survey ← onLeft scan
  survey.useful.forM fun (row, efficacy) =>
    onRight (SeparationRound.add row (.ofFloat efficacy) false)
  return survey.finding

def clear : Action (Linked CutPool) Unit :=
  stockPart.run Stock.clear

end CutPool

end BranchCutPrice
