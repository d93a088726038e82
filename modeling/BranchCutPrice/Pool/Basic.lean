import BranchCutPrice.Action
import BranchCutPrice.Linear.Column
import BranchCutPrice.Linear.Row
import BranchCutPrice.Slot.Registry

/-!
Pools of registered objects that may become useful again. The entries stand in an
array, an index by hash finds the entry that is equal to a given object, and an
entry that leaves is replaced by the last one.
-/

namespace BranchCutPrice

/-- What a pool asks of the objects it keeps. -/
class Poolable (α : Type) where
  name : α → String
  /-- Objects that may still change are not pooled. -/
  modifiable : α → Bool

instance : Poolable Row where
  name := Row.name
  modifiable := Row.modifiable

instance : Poolable Column where
  name := Column.name
  modifiable := Column.modifiable

/-- When two objects count as equal. Equal objects must have equal hashes. -/
structure Key (α : Type) where
  hash : α → UInt64
  same : α → α → Bool

def Row.key (tolerance : Float) : Key Row where
  hash := Row.structuralHash
  same left right := left.sameCut right tolerance

def Column.key (tolerance : Float) : Key Column where
  hash := Column.structuralHash
  same left right := left.sameColumn right tolerance

structure PoolEntry (kind : Kind) where
  handle : Handle kind
  /-- The number of checks in a row that found the entry useless. -/
  age : Nat
  /-- The solution that the entry was last checked against. -/
  processed : Option Nat
  /-- The position in the array of entries. -/
  position : Nat
  /-- The hash under which the position is indexed. -/
  hash : UInt64
  deriving DecidableEq, Repr

structure PoolStats where
  /-- The scans that checked an entry. -/
  calls : Nat := 0
  /-- The entries found useful. -/
  found : Nat := 0
  checks : Nat := 0
  evicted : Nat := 0
  /-- The largest number of entries at a time. -/
  peak : Nat := 0
  deriving DecidableEq, Repr

structure Pool (kind : Kind) (α : Type) where
  entries : Array (PoolEntry kind)
  /-- The positions of the entries of each hash, in the order of their arrival. -/
  index : Std.TreeMap UInt64 (List Nat)
  key : Key α
  ageLimit : Nat
  /-- The solution that the entries were last scanned for. -/
  processed : Option Nat
  /-- The entries before this position were checked against that solution. -/
  cursor : Nat
  stats : PoolStats

/-- A pool together with the registry of the objects it refers to. -/
structure Stock (kind : Kind) (α : Type) where
  pool : Pool kind α
  registry : Registry kind α

namespace Pool

variable {kind : Kind} {α : Type}

def empty (key : Key α) (ageLimit : Nat) : Pool kind α where
  entries := #[]
  index := ∅
  key := key
  ageLimit := ageLimit
  processed := none
  cursor := 0
  stats := {}

/-- So many entries do not fit into the address space, of 16 bytes each or more. Room for fewer of
them is taken to be there, whatever memory is left. -/
def capacityLimit : Nat := 0x1000000000000000

/-- Makes room for more entries, which is refused beyond the address space. -/
def reserve (pool : Pool kind α) (additional : Nat) : Except Error (Pool kind α) :=
  if additional < capacityLimit then .ok pool else .error (.outOfMemory "pool entries")

/-- The first of some positions whose entry has the given handle or an object
equal to the given one. -/
def findAmong (pool : Pool kind α) (registry : Registry kind α) (handle : Handle kind)
    (item : α) : List Nat → Except Error (Option Nat)
  | [] => .ok none
  | position :: rest =>
      match pool.entries[position]? with
      | none => pool.findAmong registry handle item rest
      | some entry =>
          if entry.handle = handle then .ok (some position)
          else do
            let stored ← registry.get entry.handle
            if pool.key.same stored item then return some position
            else pool.findAmong registry handle item rest

/-- The position of the entry that is equal to an object. -/
def find (pool : Pool kind α) (registry : Registry kind α) (handle : Handle kind) :
    Except Error (Option Nat) := do
  let item ← registry.get handle
  pool.findAmong registry handle item (pool.index[pool.key.hash item]?.getD [])

def contains (pool : Pool kind α) (registry : Registry kind α) (handle : Handle kind) :
    Except Error Bool := do
  return (← pool.find registry handle).isSome

/-- The entry that is equal to an object. -/
def entryOf (pool : Pool kind α) (registry : Registry kind α) (handle : Handle kind) :
    Except Error (Option (PoolEntry kind)) := do
  return (← pool.find registry handle).bind fun position => pool.entries[position]?

/-- Appends an entry and indexes it. -/
def push (pool : Pool kind α) (handle : Handle kind) (hash : UInt64) : Pool kind α :=
  let position := pool.entries.size
  { pool with
    entries := pool.entries.push ⟨handle, 0, none, position, hash⟩
    index := pool.index.insert hash (pool.index[hash]?.getD [] ++ [position])
    stats := { pool.stats with peak := max pool.stats.peak (position + 1) } }

/-- Takes a position out of the index; a hash without positions goes too. -/
def unindex (index : Std.TreeMap UInt64 (List Nat)) (hash : UInt64) (position : Nat) :
    Std.TreeMap UInt64 (List Nat) :=
  match index[hash]? with
  | none => index
  | some bucket =>
      let rest := bucket.filter (· != position)
      if rest.isEmpty then index.erase hash else index.insert hash rest

/-- Renames a position in the index. -/
def reindex (index : Std.TreeMap UInt64 (List Nat)) (hash : UInt64) (old new : Nat) :
    Std.TreeMap UInt64 (List Nat) :=
  match index[hash]? with
  | none => index
  | some bucket => index.insert hash (bucket.replace old new)

/-- Takes out the entry at a position, which the last entry then takes. The
cursor moves back if that one was not yet checked. -/
def detach (pool : Pool kind α) (position : Nat) (removed : PoolEntry kind) : Pool kind α :=
  let last := pool.entries.size - 1
  let index := unindex pool.index removed.hash position
  match if position < last then pool.entries[last]? else none with
  | none =>
      { pool with
        entries := pool.entries.pop
        index := index
        cursor := min pool.cursor last }
  | some moved =>
      let cursor := if moved.processed = pool.processed then pool.cursor
        else min pool.cursor position
      { pool with
        entries := (pool.entries.setIfInBounds position { moved with position := position }).pop
        index := reindex index moved.hash last position
        cursor := min cursor last }

end Pool

namespace Stock

variable {kind : Kind} {α : Type}

def modifyPool (f : Pool kind α → Pool kind α) : Action (Stock kind α) Unit :=
  modify fun s => { s with pool := f s.pool }

def release (handle : Handle kind) : Action (Stock kind α) Unit :=
  .change fun s => do return { s with registry := (← s.registry.release handle).2 }

def reserve (additional : Nat) : Action (Stock kind α) Unit :=
  .change fun s => do return { s with pool := ← s.pool.reserve additional }

/-- Adds an object without looking for an equal one, and captures it. -/
def add [Poolable α] (handle : Handle kind) : Action (Stock kind α) Unit :=
  .change fun s => do
    let item ← s.registry.get handle
    if Poolable.modifiable item then throw (.modifiable kind.text)
    let registry ← s.registry.capture handle
    return ⟨s.pool.push handle (s.pool.key.hash item), registry⟩

/-- Adds an object unless an equal one is stored. Gives the stored one, and
whether it was there before. -/
def addIfNew [Poolable α] (handle : Handle kind) :
    Action (Stock kind α) (Handle kind × Bool) := do
  match ← Action.read fun s => s.pool.entryOf s.registry handle with
  | some entry => return (entry.handle, true)
  | none =>
      add handle
      return (handle, false)

/-- Takes out the entry at a position and releases its object. The entry is gone
even if the release is refused. -/
def removeAt (position : Nat) : Action (Stock kind α) Unit := do
  match (← get).pool.entries[position]? with
  | none => pure ()
  | some entry =>
      modifyPool (·.detach position entry)
      release entry.handle

/-- Takes out the entry that is equal to an object. -/
def remove [Poolable α] (handle : Handle kind) : Action (Stock kind α) Unit := do
  match ← Action.read fun s => s.pool.find s.registry handle with
  | some position => removeAt position
  | none =>
      let item ← Action.read fun s => s.registry.get handle
      throw (.notPooled s!"{kind.text} <{Poolable.name item}>")

/-- Takes out every entry, then releases their objects up to the first stale one. -/
def clear : Action (Stock kind α) Unit := do
  let entries := (← get).pool.entries.toList
  modifyPool fun pool => { pool with entries := #[], index := ∅, cursor := 0 }
  entries.forM fun entry => release entry.handle

end Stock

end BranchCutPrice
