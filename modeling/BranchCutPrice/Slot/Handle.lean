import Std.Data.TreeMap
import Std.Data.TreeSet

/-!
Handles name objects that live in numbered slots. A handle carries the generation
of its slot, so that it is told apart from later users of the same slot.
-/

namespace BranchCutPrice

/-- What a handle names. -/
inductive Kind where
  | row
  | column
  | basis
  | node
  deriving DecidableEq, Repr

def Kind.text : Kind → String
  | .row => "row"
  | .column => "column"
  | .basis => "lp state"
  | .node => "node"

structure Handle (kind : Kind) where
  slot : UInt32
  generation : UInt32
  deriving DecidableEq, Repr

abbrev RowId := Handle .row

abbrev ColumnId := Handle .column

abbrev BasisId := Handle .basis

abbrev NodeId := Handle .node

namespace Handle

variable {kind : Kind}

/-- The slot number as written in messages. -/
def index (handle : Handle kind) : Nat :=
  handle.slot.toNat

def text (handle : Handle kind) : String :=
  s!"{kind.text}#{handle.slot.toNat}.{handle.generation.toNat}"

/-- Handles are ordered by slot, then by generation. -/
instance : Ord (Handle kind) :=
  ⟨compareLex (compareOn slot) (compareOn generation)⟩

instance : Std.TransOrd (Handle kind) :=
  inferInstanceAs (Std.TransCmp (compareLex (compareOn slot) (compareOn generation)))

instance : Std.LawfulEqOrd (Handle kind) where
  eq_of_compare {a b} equal := by
    obtain ⟨slots, generations⟩ := Ordering.then_eq_eq.1 equal
    cases a
    cases b
    cases Std.LawfulEqOrd.eq_of_compare slots
    cases Std.LawfulEqOrd.eq_of_compare generations
    rfl

end Handle

end BranchCutPrice
