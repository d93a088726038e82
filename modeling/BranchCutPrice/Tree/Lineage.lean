import BranchCutPrice.Tree.Basic

/-!
Walks from a node towards the root. The relaxation of a node is not stored: its
rows are those of the nearest subroot, or none at the root, followed by what each
node below adds.
-/

namespace BranchCutPrice.Tree

/-- A node and its ancestors, up to the first one at which `stop` holds. No walk
is longer than the number of slots, so that is a bound on the number of steps. -/
def ascend (tree : Tree) (stop : Node → Bool) :
    (steps : Nat) → NodeId → Except Error (List (NodeId × Node))
  | 0, id => .error id.stale
  | steps + 1, id => do
      let node ← tree.node id
      match node.parent with
      | none => return [(id, node)]
      | some parent =>
          if stop node then return [(id, node)]
          else return (id, node) :: (← ascend tree stop steps parent)

/-- A node and its ancestors up to the nearest subroot. -/
def lineage (tree : Tree) (id : NodeId) : Except Error (List Node) := do
  return (← tree.ascend (·.payload.isSubroot) tree.nodes.slots.size id).map Prod.snd

/-- The rows of the relaxation of a node, in order. -/
def lpRows (tree : Tree) (id : NodeId) : Except Error (List RowId) := do
  return (← tree.lineage id).reverse.flatMap (·.payload.rows)

/-- The number of nodes between a node and the nearest subroot, that node
included, and the number of rows they add. -/
def deltaChain (tree : Tree) (id : NodeId) : Except Error (Nat × Nat) := do
  let forks := (← tree.lineage id).filter (!·.payload.isSubroot)
  return (forks.length, (forks.flatMap (·.payload.added)).length)

/-- The nodes from the root to a node. -/
def pathTo (tree : Tree) (id : NodeId) : Except Error (List NodeId) := do
  return ((← tree.ascend (fun _ => false) tree.nodes.slots.size id).map Prod.fst).reverse

end BranchCutPrice.Tree
