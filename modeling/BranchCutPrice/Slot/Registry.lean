import BranchCutPrice.Error
import BranchCutPrice.Slot.Table

/-!
Shared ownership. A registered object counts its users: whoever registers it is
the first one, and it leaves the registry with its last one.
-/

namespace BranchCutPrice

structure Shared (α : Type) where
  value : α
  uses : Nat
  deriving DecidableEq, Repr

structure Registry (kind : Kind) (α : Type) where
  table : SlotTable kind (Shared α)
  deriving DecidableEq, Repr

namespace Registry

variable {kind : Kind} {α : Type}

def empty : Registry kind α :=
  ⟨.empty⟩

def shared (registry : Registry kind α) (handle : Handle kind) : Except Error (Shared α) :=
  match registry.table.get? handle with
  | some object => .ok object
  | none => .error handle.stale

def contains (registry : Registry kind α) (handle : Handle kind) : Bool :=
  registry.table.contains handle

def get (registry : Registry kind α) (handle : Handle kind) : Except Error α := do
  return (← registry.shared handle).value

def uses (registry : Registry kind α) (handle : Handle kind) : Except Error Nat := do
  return (← registry.shared handle).uses

/-- Registers an object; the caller is its first user. -/
def insert (registry : Registry kind α) (value : α) : Handle kind × Registry kind α :=
  let (handle, table) := registry.table.insert ⟨value, 1⟩
  (handle, ⟨table⟩)

/-- Overwrites an object; its handle and its users stay. -/
def replace (registry : Registry kind α) (handle : Handle kind) (value : α) :
    Except Error (Registry kind α) := do
  let object ← registry.shared handle
  return ⟨registry.table.set handle { object with value := value }⟩

/-- Adds a user. -/
def capture (registry : Registry kind α) (handle : Handle kind) :
    Except Error (Registry kind α) := do
  let object ← registry.shared handle
  return ⟨registry.table.set handle { object with uses := object.uses + 1 }⟩

/-- Drops a user. The last one takes the object out and gets it. -/
def release (registry : Registry kind α) (handle : Handle kind) :
    Except Error (Option α × Registry kind α) := do
  let object ← registry.shared handle
  if object.uses = 0 then
    throw (.useCountUnderflow kind.text handle.index)
  else if object.uses = 1 then
    return (some object.value, ⟨registry.table.erase handle⟩)
  else
    return (none, ⟨registry.table.set handle { object with uses := object.uses - 1 }⟩)

/-- The number of registered objects. -/
def size (registry : Registry kind α) : Nat :=
  registry.table.live

/-- The registered objects with their handles, in slot order. -/
def entries (registry : Registry kind α) : List (Handle kind × α) :=
  registry.table.entries.map fun (handle, object) => (handle, object.value)

end Registry

end BranchCutPrice
