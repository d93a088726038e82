import BranchCutPrice.Tree.Lineage

/-!
Conversion of solved nodes. A solved leaf becomes a fork, which keeps the rows
that it added, or a subroot, which keeps the complete row list.
-/

namespace BranchCutPrice.Tree

/-- Turns a leaf into a fork and releases its warm start. It leaves the queue. -/
def leafToFork (id : NodeId) : Action (Linked Tree) Unit := do
  let node ← Action.read (·.own.node id)
  match node.payload with
  | .leaf basis added =>
      onOwn (modify fun tree =>
        let tree := tree.setPayload id node (.fork added 0)
        { tree with
          queue := tree.queue.erase id
          stats := { tree.stats with forks := tree.stats.forks + 1 } })
      onLp (Relaxation.releaseBasis basis)
      Action.emit (.becameFork id.index)
  | payload => throw (.wrongKind id.index payload.kind "leaf")

/-- Turns the focus from a fork into a subroot that holds the loaded rows. -/
def forkToSubroot (id : NodeId) : Action (Linked Tree) Unit := do
  let node ← Action.read (·.own.node id)
  match node.payload with
  | .fork added children =>
      Action.read (·.own.requireFocus id)
      let rows := (← get).lp.loadedRows
      onLp (Relaxation.captureRows rows)
      onOwn (modify fun tree =>
        let tree := tree.setPayload id node (.subroot rows children)
        { tree with stats := { tree.stats with subroots := tree.stats.subroots + 1 } })
      onLp (Relaxation.releaseRows added)
      Action.emit (.becameSubroot id.index rows.length)
  | payload => throw (.wrongKind id.index payload.kind "fork")

/-- The rows that are loaded if nothing but the recorded rows was added to the
relaxation of the parent. -/
def extendedRows (tree : Tree) (node : Node) : Except Error (List RowId) :=
  match node.parent with
  | none => .ok node.payload.added
  | some parent => do return (← tree.lpRows parent) ++ node.payload.added

/-- Turns the focus, a solved leaf, into a fork, and that into a subroot if other
rows are loaded than it recorded or if the policy asks for it. -/
def promote (id : NodeId) : Action (Linked Tree) NodeKind := do
  let node ← Action.read (·.own.getLeaf id)
  Action.read (·.own.requireFocus id)
  let expected ← Action.read (·.own.extendedRows node)
  let unchanged := expected == (← get).lp.loadedRows
  leafToFork id
  let (chain, delta) ← Action.read (·.own.deltaChain id)
  let s ← get
  if !unchanged || s.own.settings.policy.shouldFlatten chain delta s.lp.loadedRows.length then
    forkToSubroot id
    return .subroot
  else
    return .fork

end BranchCutPrice.Tree
