import BranchCutPrice.Tree.Basic

/-! What is recorded at a node, and its place in the queue. -/

namespace BranchCutPrice.Tree

/-- Appends a row to the rows that a leaf adds; other nodes stay as they are. -/
def recordRow (tree : Tree) (id : NodeId) (row : RowId) : Tree :=
  match tree.nodes.get? id with
  | some node =>
      match node.payload with
      | .leaf basis added => tree.setPayload id node (.leaf basis (added ++ [row]))
      | _ => tree
  | none => tree

/-- Loads a row at the focus, which has to be a leaf, and records it there. -/
def addRow (id : NodeId) (row : RowId) : Action (Linked Tree) Unit := do
  if (← get).own.focus != some id then throw (.invalid (.rowOutsideFocus id.index))
  let _ ← Action.read (·.own.getLeaf id)
  onLp (Relaxation.loadRow row)
  onLp (Relaxation.captureRow row)
  onOwn (modify (·.recordRow id row))

/-- Records a change of a domain, which must not be empty afterwards. -/
def addDomainChange (id : NodeId) (change : BoundChange) : Action Tree Unit :=
  .change fun tree =>
    if change.isInfeasible then .error (.invalid (.emptyDomain change.var id.index))
    else do
      let node ← tree.node id
      return tree.setNode id { node with domain := node.domain ++ [change] }

/-- Records the active constraints. -/
def setConstraints (id : NodeId) (constraints : List Nat) : Action Tree Unit :=
  .change fun tree => do
    let node ← tree.node id
    return tree.setNode id { node with constraints := constraints }

/-- Queues a leaf again with a new bound, if it is queued. -/
def requeue (tree : Tree) (id : NodeId) (node : Node) : Tree :=
  if tree.queue.contains id then
    { tree with queue := (tree.queue.erase id).push id node.bound node.depth node.seq }
  else tree

/-- Raises the bound of a leaf and gives the bound it has then. A bound is never
lowered. -/
def raiseBound (id : NodeId) (bound : Float) : Action Tree Float := do
  if bound.isNaN then throw (.invalid .undefinedBound)
  let node ← Action.read (·.getLeaf id)
  if bound ≤ node.bound then return node.bound
  else
    let node := { node with bound := bound }
    modify fun tree => (tree.setNode id node).requeue id node
    return bound

/-- Queues a leaf, unless it is queued. -/
def insertLeaf (id : NodeId) : Action Tree Unit :=
  .change fun tree => do
    let node ← tree.getLeaf id
    if tree.queue.contains id then return tree
    else return { tree with queue := tree.queue.push id node.bound node.depth node.seq }

/-- Takes a leaf out of the queue. -/
def removeLeaf (id : NodeId) : Action Tree Unit :=
  .change fun tree =>
    if tree.queue.contains id then .ok { tree with queue := tree.queue.erase id }
    else .error (.notQueued id.index)

/-- Takes the next leaf out of the queue. -/
def popLeaf : Action Tree (Option NodeId) :=
  modifyGet fun tree =>
    match tree.queue.pop? with
    | none => (none, tree)
    | some (id, queue) => (some id, { tree with queue := queue })

end BranchCutPrice.Tree
