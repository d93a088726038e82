import BranchCutPrice.Tree.Lineage

/-!
Moving the focus. The rows that the loaded relaxation shares with the one wanted
from the first row on stay loaded.
-/

namespace BranchCutPrice

/-- A step from one list of loaded rows to another. -/
inductive RowEdit where
  | shrink (length : Nat)
  | add (row : RowId)
  deriving DecidableEq, Repr

namespace Tree

/-- The number of leading elements that two lists share. -/
def sharedLength : List RowId → List RowId → Nat
  | a :: left, b :: right => if a = b then sharedLength left right + 1 else 0
  | _, _ => 0

/-- Sets the active mark of a node that is still there. -/
def mark (active : Bool) (tree : Tree) (id : NodeId) : Tree :=
  match tree.nodes.get? id with
  | some node => tree.setNode id { node with active := active }
  | none => tree

/-- Makes the way from the root to a node the active one. -/
def activate (id : NodeId) : Action Tree Unit :=
  .change fun tree => do
    let path ← tree.pathTo id
    let tree := path.foldl (mark true) (tree.activePath.foldl (mark false) tree)
    return { tree with activePath := path }

/-- The warm start of a node, if it has one. -/
def warmStart (s : Linked Tree) (id : NodeId) : Except Error (Option Basis) := do
  match (← s.own.node id).payload.basis? with
  | none => return none
  | some basis => return some (← s.lp.bases.get basis)

/-- Changes the loaded rows to the ones wanted, and gives the steps taken. -/
def reload (wanted : List RowId) : Action Relaxation (List RowEdit) := do
  let loaded := (← get).loadedRows
  let kept := sharedLength wanted loaded
  let dropped := if kept < loaded.length then [RowEdit.shrink kept] else []
  Relaxation.shrinkRows kept
  let missing := wanted.drop kept
  missing.forM Relaxation.loadRow
  return dropped ++ missing.map RowEdit.add

/-- Makes a node the focus: loads its rows and its warm start. -/
def focusOn (id : NodeId) : Action (Linked Tree) (List RowEdit) := do
  let wanted ← Action.read (·.own.lpRows id)
  let basis ← Action.read (warmStart · id)
  let kept := sharedLength wanted (← get).lp.loadedRows
  let edits ← onLp (reload wanted)
  basis.toList.forM fun basis => onLp (Relaxation.setBasis basis)
  onOwn (activate id)
  onOwn (modify fun tree => { tree with focus := some id })
  Action.emit (.focused id.index kept edits.length)
  return edits

end Tree

end BranchCutPrice
