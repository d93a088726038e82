import BranchCutPrice.Numeric.Ranking
import BranchCutPrice.Tree.Content

/-!
A separation round collects cuts and then adds the best of them at the focus. The
store is a user of every cut in it.
-/

namespace BranchCutPrice

structure StoredCut where
  row : RowId
  efficacy : RawDouble
  /-- Whether the cut enters regardless of the limit of the round. -/
  forced : Bool
  deriving DecidableEq, Repr

/-- Forced cuts come before the others, and more efficacious ones before less. -/
def StoredCut.before (left right : StoredCut) : Bool :=
  (left.forced && !right.forced) ||
    (left.forced == right.forced && Double.rank right.efficacy < Double.rank left.efficacy)

structure SeparationRound where
  cuts : List StoredCut
  forcedCount : Nat
  deriving DecidableEq, Repr

namespace SeparationRound

def empty : SeparationRound :=
  ⟨[], 0⟩

/-- Makes a stored cut forced. -/
def force (round : SeparationRound) (row : RowId) : SeparationRound where
  cuts := round.cuts.map fun cut => if cut.row = row then { cut with forced := true } else cut
  forcedCount := round.forcedCount + 1

def push (round : SeparationRound) (cut : StoredCut) : SeparationRound where
  cuts := round.cuts ++ [cut]
  forcedCount := if cut.forced then round.forcedCount + 1 else round.forcedCount

/-- Stores a cut and captures it. A cut stored before stays as it is, except that
it may become forced. -/
def add (row : RowId) (efficacy : RawDouble) (forced : Bool) :
    Action (Linked SeparationRound) Unit := do
  match (← get).own.cuts.find? (·.row == row) with
  | some stored =>
      if forced && !stored.forced then onOwn (modify (·.force row)) else pure ()
  | none =>
      onLp (Relaxation.captureRow row)
      onOwn (modify (·.push ⟨row, efficacy, forced⟩))

/-- Empties the store, then releases its cuts up to the first stale one. -/
def clear : Action (Linked SeparationRound) Unit := do
  let rows := (← get).own.cuts.map StoredCut.row
  onOwn (modify fun _ => empty)
  onLp (Relaxation.releaseRows rows)

/-- Adds cuts at a node in order, leaving out the loaded ones, until the limit on
those that are not forced is reached. Gives the number of cuts added. -/
def addCuts (node : NodeId) (limit : Nat) : (optional : Nat) → List StoredCut →
    Action (Linked Tree) Nat
  | _, [] => pure 0
  | optional, cut :: rest => do
      if !cut.forced && limit ≤ optional then return 0
      else if (← get).lp.isRowLoaded cut.row then addCuts node limit optional rest
      else
        Tree.addRow node cut.row
        let more ← addCuts node limit (if cut.forced then optional else optional + 1) rest
        return more + 1

/-- Adds the forced cuts and up to `limit` others at a node, the most efficacious
first, and empties the store whatever happens. Gives the number of cuts added. -/
def apply (node : NodeId) (limit : Nat) : Action (Linked (SeparationRound × Tree)) Nat := do
  let cuts := Ranking.sort StoredCut.before (← get).own.1.cuts
  let added ← Action.attempt (onRight (addCuts node limit 0 cuts))
  onLeft (onOwn (modify fun round => { round with cuts := cuts }))
  onLeft clear
  let added ← Action.resume added
  Action.emitIf (0 < added) (.cutsApplied added node.index)
  return added

end SeparationRound

end BranchCutPrice
