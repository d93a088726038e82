import BranchCutPrice.Relaxation
import BranchCutPrice.Tree.LeafQueue
import BranchCutPrice.Tree.Node

/-!
The search tree: its nodes, the queue of its unsolved leaves, and the focus, the
node whose relaxation is loaded.
-/

namespace BranchCutPrice

structure TreeStats where
  created : Nat := 0
  freed : Nat := 0
  /-- Leaves that became forks. -/
  forks : Nat := 0
  /-- Forks that became subroots. -/
  subroots : Nat := 0
  /-- The largest number of nodes at a time. -/
  peak : Nat := 0
  deriving DecidableEq, Repr

structure Tree where
  nodes : SlotTable .node Node
  root : Option NodeId
  queue : LeafQueue
  focus : Option NodeId
  /-- The nodes from the root to the focus. -/
  activePath : List NodeId
  nextSeq : Nat
  settings : TreeSettings
  stats : TreeStats
  deriving DecidableEq, Repr

namespace Tree

def empty (settings : TreeSettings) : Tree where
  nodes := .empty
  root := none
  queue := .empty settings.selection
  focus := none
  activePath := []
  nextSeq := 0
  settings := settings
  stats := {}

def node (tree : Tree) (id : NodeId) : Except Error Node :=
  match tree.nodes.get? id with
  | some node => .ok node
  | none => .error id.stale

def contains (tree : Tree) (id : NodeId) : Bool :=
  tree.nodes.contains id

/-- The number of nodes. -/
def size (tree : Tree) : Nat :=
  tree.nodes.live

/-- Replaces a node. -/
def setNode (tree : Tree) (id : NodeId) (node : Node) : Tree :=
  { tree with nodes := tree.nodes.set id node }

def setPayload (tree : Tree) (id : NodeId) (node : Node) (payload : Payload) : Tree :=
  tree.setNode id { node with payload := payload }

/-- The leaf with this id; other nodes are refused. -/
def getLeaf (tree : Tree) (id : NodeId) : Except Error Node := do
  let node ← tree.node id
  if node.kind = .leaf then return node
  else throw (.wrongKind id.index node.kind "leaf")

/-- Refuses nodes whose relaxation is not the loaded one. -/
def requireFocus (tree : Tree) (id : NodeId) : Except Error Unit :=
  if tree.focus = some id then .ok () else .error (.invalid (.notFocus id.index))

def bestBound (tree : Tree) : Float :=
  tree.queue.bestBound

end Tree

end BranchCutPrice
