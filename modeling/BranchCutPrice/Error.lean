import BranchCutPrice.Numeric.Decimal
import BranchCutPrice.Slot.Handle
import BranchCutPrice.Tree.NodeKind

/-! Why an operation is refused, and how the refusal is worded. -/

namespace BranchCutPrice

/-- What is wrong with the data handed to an operation. -/
inductive Defect where
  | invalidSides (name : String) (lhs rhs : Float)
  | invalidColumn (name : String)
  | duplicateIndex (owner : String) (index : Nat)
  | indexOutOfRange (owner : String) (index dimension : Nat)
  | nonFiniteCoefficient (owner : String)
  | alreadyLoaded (kind : Kind) (handle : Handle kind)
  | notLoaded (kind : Kind) (handle : Handle kind)
  | olderSolution (solution processed : Nat)
  | rootExists
  | notFocus (node : Nat)
  | rowOutsideFocus (node : Nat)
  | emptyDomain (var node : Nat)
  | undefinedBound
  | noChildren (node : Nat)
  | other (text : String)
  deriving DecidableEq, Repr

namespace Defect

def message : Defect → String
  | invalidSides name lhs rhs =>
      s!"row <{name}> has invalid sides [{Decimal.shortest lhs}, {Decimal.shortest rhs}]"
  | invalidColumn name => s!"column <{name}> has invalid objective or bounds"
  | duplicateIndex owner index => s!"<{owner}> has duplicate index {index}"
  | indexOutOfRange owner index dimension => s!"<{owner}> index {index} out of range {dimension}"
  | nonFiniteCoefficient owner => s!"<{owner}> has a non-finite coefficient"
  | alreadyLoaded _ handle => s!"{handle.text} is already in the LP"
  | notLoaded _ handle => s!"{handle.text} is not in the LP"
  | olderSolution solution processed =>
      s!"LP id {solution} is older than processed LP {processed}"
  | rootExists => "tree already has a root"
  | notFocus node => s!"node {node} is not the focus node, the loaded LP is not its own"
  | rowOutsideFocus node => s!"rows can only be added at the focus node, not node {node}"
  | emptyDomain var node => s!"empty domain for variable {var} at node {node}"
  | undefinedBound => "NaN lower bound"
  | noChildren node => s!"branching on node {node} without children"
  | other text => text

end Defect

inductive Error where
  | wrongKind (node : Nat) (found : NodeKind) (expected : String)
  | leafParent (node : Nat)
  | hasChildren (node children : Nat)
  | childCountUnderflow (node : Nat)
  | stale (kind : String) (slot : Nat)
  | useCountUnderflow (kind : String) (slot : Nat)
  | modifiable (kind : String)
  | notQueued (node : Nat)
  | notPooled (item : String)
  | invalid (defect : Defect)
  | outOfMemory (growing : String)
  deriving DecidableEq, Repr

namespace Error

def message : Error → String
  | wrongKind node found expected => s!"Node {node} is a {found.text}, expected {expected}"
  | leafParent node => s!"Node {node} is a leaf and cannot have children"
  | hasChildren node children => s!"Node {node} still has {children} live children"
  | childCountUnderflow node => s!"Child count underflow on node {node}"
  | stale kind slot => s!"Stale {kind} handle (slot {slot})"
  | useCountUnderflow kind slot => s!"Reference count underflow on {kind} (slot {slot})"
  | modifiable kind => s!"Cannot store modifiable {kind} in a pool"
  | notQueued node => s!"Node {node} is not in the leaf queue"
  | notPooled item => s!"{item} is not stored in the pool"
  | invalid defect => s!"Invalid data: {defect.message}"
  | outOfMemory growing => s!"Out of memory while growing {growing}"

/-- Whether the calling code is at fault, so that the search cannot go on. -/
def isUsage : Error → Bool
  | outOfMemory _ => false
  | notPooled _ => false
  | _ => true

end Error

/-- The refusal of a handle that names nothing, or no longer what it named. -/
def Handle.stale {kind : Kind} (handle : Handle kind) : Error :=
  .stale kind.text handle.index

end BranchCutPrice
