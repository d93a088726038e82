import BranchCutPrice.Slot.Handle

/-!
Tables of numbered slots. An emptied slot is used again, the one emptied last
first; emptying a slot moves it to its next generation, so that the handles of
what it held before are rejected.
-/

namespace BranchCutPrice

structure Slot (α : Type) where
  generation : UInt32
  content : Option α
  deriving DecidableEq, Repr

structure SlotTable (kind : Kind) (α : Type) where
  slots : Array (Slot α)
  /-- The empty slots, the one emptied last first. -/
  free : List UInt32
  /-- The number of occupied slots. -/
  live : Nat
  deriving DecidableEq, Repr

namespace SlotTable

variable {kind : Kind} {α : Type}

def empty : SlotTable kind α :=
  ⟨#[], [], 0⟩

/-- What a handle names, if it still does. -/
def get? (table : SlotTable kind α) (handle : Handle kind) : Option α :=
  match table.slots[handle.index]? with
  | some slot => if slot.generation = handle.generation then slot.content else none
  | none => none

def contains (table : SlotTable kind α) (handle : Handle kind) : Bool :=
  (table.get? handle).isSome

/-- Stores an object in the slot emptied last, or in a new one. -/
def insert (table : SlotTable kind α) (a : α) : Handle kind × SlotTable kind α :=
  match table.free with
  | slot :: free =>
      let generation := (table.slots[slot.toNat]?.map Slot.generation).getD 0
      (⟨slot, generation⟩,
        ⟨table.slots.setIfInBounds slot.toNat ⟨generation, some a⟩, free, table.live + 1⟩)
  | [] =>
      (⟨table.slots.size.toUInt32, 0⟩,
        ⟨table.slots.push ⟨0, some a⟩, [], table.live + 1⟩)

/-- Replaces what a handle names; a stale handle changes nothing. -/
def set (table : SlotTable kind α) (handle : Handle kind) (a : α) : SlotTable kind α :=
  if table.contains handle then
    { table with slots := table.slots.setIfInBounds handle.index ⟨handle.generation, some a⟩ }
  else table

/-- Empties the slot of a handle; a stale handle changes nothing. -/
def erase (table : SlotTable kind α) (handle : Handle kind) : SlotTable kind α :=
  if table.contains handle then
    ⟨table.slots.setIfInBounds handle.index ⟨handle.generation + 1, none⟩,
      handle.slot :: table.free, table.live - 1⟩
  else table

/-- The stored objects with their handles, in slot order. -/
def entries (table : SlotTable kind α) : List (Handle kind × α) :=
  table.slots.toList.zipIdx.filterMap fun (slot, i) =>
    slot.content.map fun a => (⟨i.toUInt32, slot.generation⟩, a)

def handles (table : SlotTable kind α) : List (Handle kind) :=
  table.entries.map Prod.fst

end SlotTable

end BranchCutPrice
