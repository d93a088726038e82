import BranchCutPrice.Tree.Basic

/-! Creation of leaves. -/

namespace BranchCutPrice.Tree

/-- Stores a new node. -/
def allocate (node : Node) : Action Tree NodeId :=
  modifyGet fun tree =>
    let (id, nodes) := tree.nodes.insert { node with seq := tree.nextSeq }
    (id, { tree with
      nodes := nodes
      nextSeq := tree.nextSeq + 1
      stats := { tree.stats with
        created := tree.stats.created + 1
        peak := max tree.stats.peak nodes.live } })

/-- Counts a child more at a node. -/
def captureChild (id : NodeId) : Action Tree Unit :=
  .change fun tree => do
    let node ← tree.node id
    return tree.setPayload id node (← node.payload.captureChild id.index)

/-- The bound and the depth of a new child. Leaves cannot have children. -/
def heritage (tree : Tree) : Option NodeId → Except Error (Float × Nat)
  | none => .ok (Double.negInfinity, 0)
  | some parent => do
      let node ← tree.node parent
      if node.kind = .leaf then throw (.leafParent parent.index)
      return (node.bound, node.depth + 1)

/-- Creates a leaf and captures its warm start. The child count of the parent
grows, and its bound is passed on. -/
def createNode (parent : Option NodeId) (basis : BasisId) : Action (Linked Tree) NodeId := do
  let (bound, depth) ← Action.read (·.own.heritage parent)
  onLp (Relaxation.captureBasis basis)
  parent.toList.forM fun parent => onOwn (captureChild parent)
  let id ← onOwn (allocate {
    payload := .leaf basis []
    parent := parent
    constraints := []
    domain := []
    bound := bound
    depth := depth
    active := false
    seq := 0 })
  Action.emit (.leafCreated id.index depth)
  return id

/-- Creates the root of an empty tree. -/
def createRoot (basis : BasisId) : Action (Linked Tree) NodeId := do
  if (← get).own.root.isSome then throw (.invalid .rootExists)
  let id ← createNode none basis
  onOwn (modify fun tree => { tree with root := some id })
  return id

/-- Creates a leaf below a fork or subroot. -/
def createLeaf (parent : NodeId) (basis : BasisId) : Action (Linked Tree) NodeId :=
  createNode (some parent) basis

end BranchCutPrice.Tree
