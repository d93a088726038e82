import BranchCutPrice.Session.Basic

/-! Separation and pricing rounds of a session. -/

namespace BranchCutPrice.Session

/-- The pooled cut that is equal to a row, which is pooled if there is none. Rows
that may still change stand for themselves. -/
def pooledCut (row : RowId) : Action Session RowId := do
  let item ← Action.read (·.lp.rows.get row)
  if item.modifiable then return row
  else return (← (linked cutPoolPart).run (CutPool.add row)).1

/-- Hands a cut to the current round and pools it. -/
def addCut (row : RowId) (forced : Bool) : Action Session Unit := do
  let stored ← pooledCut row
  let item ← Action.read (·.lp.rows.get stored)
  let efficacy := item.efficacy (← get).lp.primal
  (linked cutsPart).run (SeparationRound.add stored (.ofFloat efficacy) forced)

/-- Ends a separation round at a leaf: pooled cuts that are violated join those
handed in, and the best of them are added. Gives the number of rows added. -/
def separationRound (id : NodeId) : Action Session Nat := do
  let finding ← (linked (cutPoolPart.pair cutsPart)).run CutPool.separate
  let session ← get
  if finding = .notRun && session.cuts.cuts.isEmpty then return 0
  else
    let added ← (linked (cutsPart.pair treePart)).run
      (SeparationRound.apply id session.settings.maxCutsPerRound)
    modify fun s => { s with cutsAdded := s.cutsAdded + added }
    return added

/-- The pooled column that is equal to a given one, which is pooled if there is
none. Columns that may still change stand for themselves. -/
def pooledColumn (column : ColumnId) : Action Session ColumnId := do
  let item ← Action.read (·.lp.columns.get column)
  if item.modifiable then return column
  else return (← (linked columnPoolPart).run (ColumnPool.add column)).1

/-- Hands a column to the current round and pools it. -/
def addPricedColumn (column : ColumnId) (reducedCost : Float) (forced : Bool) :
    Action Session Unit := do
  let stored ← pooledColumn column
  (linked columnsPart).run (PricingRound.add stored reducedCost forced)

/-- Ends a pricing round: pooled columns that improve the relaxation join those
handed in, and the best of them are loaded. -/
def pricingRound (mode : PricingMode) : Action Session RoundResult := do
  let _ ← (linked (columnPoolPart.pair columnsPart)).run (ColumnPool.price mode)
  let result ← (linked columnsPart).run
    (PricingRound.selectBest (← get).settings.pricing.maxColumns)
  modify fun s => { s with columnsAdded := s.columnsAdded + result.added }
  return result

end BranchCutPrice.Session
