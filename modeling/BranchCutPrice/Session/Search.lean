import BranchCutPrice.Session.Basic

/-!
The steps of a search: start, take up a leaf, record its solution, branch on it
or finish it, and report solutions.
-/

namespace BranchCutPrice.Session

/-- Loads rows again at the root, each of which was captured beforehand. -/
def adoptRows (root : NodeId) (rows : List RowId) : Action Session Unit :=
  rows.forM fun row => do
    onTree (Tree.addRow root row)
    lpPart.run (Relaxation.releaseRow row)

/-- Creates the root and queues it. The loaded rows become rows of the root. -/
def start : Action Session NodeId := do
  let rows := (← get).lp.loadedRows
  lpPart.run (Relaxation.captureRows rows)
  lpPart.run (Relaxation.shrinkRows 0)
  let basis ← lpPart.run Relaxation.snapshotBasis
  let created ← Action.attempt (onTree (Tree.createRoot basis))
  lpPart.run (Relaxation.releaseBasis basis)
  let root ← Action.resume created
  let _ ← onTree (Tree.focusOn root)
  adoptRows root rows
  treePart.run (Tree.insertLeaf root)
  let session ← get
  Action.emitIf session.settings.verbose
    (.started session.lp.loadedRows.length session.lp.loadedColumns.length)
  return root

/-- Takes up to `remaining` leaves off the queue until one can still hold a better
solution; the others are removed. -/
def nextAmong : (remaining : Nat) → Action Session (Option NodeId)
  | 0 => pure none
  | remaining + 1 => do
      match ← treePart.run Tree.popLeaf with
      | none => return none
      | some id =>
          let node ← Action.read (·.tree.node id)
          if node.canPrune (← get).incumbent.cutoff then
            onTree (Tree.freeNode id)
            modify fun s => { s with pruned := s.pruned + 1 }
            nextAmong remaining
          else
            let _ ← onTree (Tree.focusOn id)
            modify fun s => { s with processed := s.processed + 1 }
            reportProgress
            return some id

/-- Takes up the next leaf and loads its relaxation. There is none if the search
is exhausted. -/
def nextNode : Action Session (Option NodeId) := do
  nextAmong (← get).tree.queue.size

/-- Installs the solution of the loaded relaxation, gives its number, and raises
the bound of the node. -/
def installSolution (id : NodeId) (primal duals : Array Float) (objective : Float) :
    Action Session Nat := do
  let solution ← lpPart.run (Relaxation.installSolution primal duals objective)
  let _ ← treePart.run (Tree.raiseBound id objective)
  return solution

/-- Installs a proof that the loaded relaxation is infeasible. -/
def installFarkas (proof : Array Float) : Action Session Nat :=
  lpPart.run (Relaxation.installFarkas proof)

/-- Creates a queued leaf with its domain changes. -/
def createChild (parent : NodeId) (basis : BasisId) (changes : List BoundChange) :
    Action Session NodeId := do
  let child ← onTree (Tree.createLeaf parent basis)
  changes.forM fun change => treePart.run (Tree.addDomainChange child change)
  treePart.run (Tree.insertLeaf child)
  return child

/-- Creates the children of a node in order. -/
def createChildren (parent : NodeId) (basis : BasisId) :
    List (List BoundChange) → Action Session (List NodeId)
  | [] => pure []
  | changes :: rest => do
      let child ← createChild parent basis changes
      let others ← createChildren parent basis rest
      return child :: others

/-- Branches on the focus, a solved leaf: promotes it and creates a queued child
for each list of domain changes. The children start from the current basis. -/
def branch (id : NodeId) (children : List (List BoundChange)) :
    Action Session (List NodeId) := do
  if children.isEmpty then throw (.invalid (.noChildren id.index))
  let kind ← onTree (Tree.promote id)
  Action.emitIf (kind = .subroot) (.storedAsSubroot id.index)
  let basis ← lpPart.run Relaxation.snapshotBasis
  let created ← Action.attempt (createChildren id basis children)
  lpPart.run (Relaxation.releaseBasis basis)
  Action.resume created

/-- Closes a leaf that is not branched on. -/
def finishNode (id : NodeId) : Action Session Unit :=
  onTree (Tree.freeNode id)

/-- Reports a solution. If it is better than the incumbent, the queued leaves that
cannot beat it are removed. Says whether it is. -/
def reportSolution (solution : Array Float) (objective : Float) : Action Session Bool := do
  if ← incumbentPart.run (Incumbent.update solution objective) then
    let leaves ← onTree (Tree.pruneLeaves objective)
    modify fun s => { s with pruned := s.pruned + leaves }
    Action.emitIf (← get).settings.verbose (.improved objective leaves)
    return true
  else
    return false

/-- Removes all nodes, pooled entries and loaded rows and columns. -/
def clear : Action Session Unit := do
  (linked cutsPart).run SeparationRound.clear
  (linked columnsPart).run PricingRound.clear
  onTree Tree.clear
  (linked cutPoolPart).run CutPool.clear
  (linked columnPoolPart).run ColumnPool.clear
  lpPart.run Relaxation.clear

end BranchCutPrice.Session
