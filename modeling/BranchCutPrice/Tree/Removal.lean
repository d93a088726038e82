import BranchCutPrice.Tree.Basic

/-!
Removal of nodes. A node goes when its last child goes, so exhausted parts of the
tree vanish from below.
-/

namespace BranchCutPrice.Tree

/-- Takes a node out of its slot. -/
def take (id : NodeId) : Action Tree Node := do
  let node ← Action.read (·.node id)
  modify fun tree => { tree with
    nodes := tree.nodes.erase id
    stats := { tree.stats with freed := tree.stats.freed + 1 } }
  return node

/-- Forgets a node that is no longer there: in the queue, as focus, on the active
path and as root. -/
def forget (tree : Tree) (id : NodeId) : Tree :=
  { tree with
    queue := tree.queue.erase id
    focus := if tree.focus = some id then none else tree.focus
    activePath := tree.activePath.filter (· != id)
    root := if tree.root = some id then none else tree.root }

/-- Takes a node out of the tree. -/
def detach (id : NodeId) : Action Tree Node := do
  let node ← take id
  modify (·.forget id)
  return node

/-- Releases what a node held, the basis first, up to the first stale handle. -/
def releasePayload (payload : Payload) : Action Relaxation Unit := do
  payload.basis?.toList.forM Relaxation.releaseBasis
  Relaxation.releaseRows payload.rows

/-- Counts a child less at a node and gives the number of those left. -/
def releaseChild (id : NodeId) : Action Tree Nat := do
  let node ← Action.read (·.node id)
  let payload ← Action.resume (node.payload.releaseChild id.index)
  modify (·.setPayload id node payload)
  return payload.children

/-- Removes a node without children, then its parent if that has none left, and
so on. No more nodes can go than there are slots. -/
def freeUpwards : (steps : Nat) → NodeId → Action (Linked Tree) Unit
  | 0, id => throw id.stale
  | steps + 1, id => do
      let node ← onOwn (detach id)
      onLp (releasePayload node.payload)
      Action.emit (.nodeFreed id.index node.depth)
      match node.parent with
      | none => pure ()
      | some parent =>
          let remaining ← onOwn (releaseChild parent)
          if remaining = 0 then freeUpwards steps parent else pure ()

/-- Removes a node and releases what it held. Nodes with children are refused. -/
def freeNode (id : NodeId) : Action (Linked Tree) Unit := do
  let tree := (← get).own
  let node ← Action.read (·.own.node id)
  if 0 < node.payload.children then throw (.hasChildren id.index node.payload.children)
  freeUpwards tree.nodes.slots.size id

/-- Removes the queued leaves whose bounds reach the cutoff, and gives their number. -/
def pruneLeaves (cutoff : Float) : Action (Linked Tree) Nat := do
  let leaves ← onOwn (modifyGet fun tree =>
    let (leaves, queue) := tree.queue.drain cutoff
    (leaves, { tree with queue := queue }))
  leaves.forM freeNode
  Action.emitIf (!leaves.isEmpty) (.pruned leaves.length cutoff)
  return leaves.length

/-- Removes every node, whatever its children. -/
def clear : Action (Linked Tree) Unit := do
  (← get).own.nodes.handles.forM fun id => do
    let node ← onOwn (take id)
    onLp (releasePayload node.payload)
  onOwn (modify fun tree => { tree with
    queue := .empty tree.settings.selection
    root := none
    focus := none
    activePath := [] })

end BranchCutPrice.Tree
