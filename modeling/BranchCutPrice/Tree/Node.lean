import BranchCutPrice.Error
import BranchCutPrice.Numeric.Double

/-!
Nodes of the search tree. A node refers to rows it holds and, while it is
unsolved, to a basis to start from; it counts its children without listing them.
-/

namespace BranchCutPrice

/-- A change of the domain of a variable. -/
structure BoundChange where
  var : Nat
  oldLower : Float
  oldUpper : Float
  newLower : Float
  newUpper : Float
  deriving DecidableEq, Repr

namespace BoundChange

/-- The branch `x ≤ ⌊value⌋`. -/
def down (var : Nat) (lower upper value : Float) : BoundChange :=
  ⟨var, lower, upper, lower, value.floor⟩

/-- The branch `x ≥ ⌈value⌉`. -/
def up (var : Nat) (lower upper value : Float) : BoundChange :=
  ⟨var, lower, upper, value.ceil, upper⟩

/-- Whether the new domain is empty. -/
def isInfeasible (change : BoundChange) : Bool :=
  change.newUpper + Double.boundSlack < change.newLower

end BoundChange

/-- What a node holds. Each row and the basis is captured once per occurrence. -/
inductive Payload where
  | leaf (basis : BasisId) (added : List RowId)
  | fork (added : List RowId) (children : Nat)
  | subroot (rows : List RowId) (children : Nat)
  deriving DecidableEq, Repr

namespace Payload

def kind : Payload → NodeKind
  | leaf .. => .leaf
  | fork .. => .fork
  | subroot .. => .subroot

/-- The rows that the node adds to the relaxation of its parent. -/
def added : Payload → List RowId
  | leaf _ added => added
  | fork added _ => added
  | subroot .. => []

/-- The rows that the node holds. -/
def rows : Payload → List RowId
  | leaf _ added => added
  | fork added _ => added
  | subroot rows _ => rows

/-- The complete row list of a subroot. -/
def subrootRows? : Payload → Option (List RowId)
  | subroot rows _ => some rows
  | _ => none

/-- The warm start of a leaf. -/
def basis? : Payload → Option BasisId
  | leaf basis _ => some basis
  | _ => none

def children : Payload → Nat
  | leaf .. => 0
  | fork _ children => children
  | subroot _ children => children

def isSubroot : Payload → Bool
  | subroot .. => true
  | _ => false

/-- Counts one more child of the node at `slot`. -/
def captureChild (slot : Nat) : Payload → Except Error Payload
  | leaf .. => .error (.leafParent slot)
  | fork added children => .ok (fork added (children + 1))
  | subroot rows children => .ok (subroot rows (children + 1))

/-- Counts one child less of the node at `slot`. -/
def releaseChild (slot : Nat) : Payload → Except Error Payload
  | leaf .. => .error (.leafParent slot)
  | fork _ 0 => .error (.childCountUnderflow slot)
  | fork added (children + 1) => .ok (fork added children)
  | subroot _ 0 => .error (.childCountUnderflow slot)
  | subroot rows (children + 1) => .ok (subroot rows children)

end Payload

structure Node where
  payload : Payload
  parent : Option NodeId
  constraints : List Nat
  domain : List BoundChange
  /-- The lower bound on the objective of all solutions below the node. -/
  bound : Float
  depth : Nat
  /-- Whether the node is on the way from the root to the focus. -/
  active : Bool
  /-- The number of nodes created before this one. -/
  seq : Nat
  deriving DecidableEq, Repr

namespace Node

def kind (node : Node) : NodeKind :=
  node.payload.kind

/-- Whether no solution below the node is better than the cutoff. -/
def canPrune (node : Node) (cutoff : Float) : Bool :=
  cutoff - Double.boundSlack ≤ node.bound

end Node

end BranchCutPrice
