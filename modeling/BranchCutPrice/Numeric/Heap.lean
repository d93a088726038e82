/-!
Lists in the layout of a binary heap: the children of position `i` are at `2 * i + 1`
and `2 * i + 2`, and no entry comes before its parent. Every operation only moves
entries by exchanges, so apart from the entry put in or taken out the entries stay
the same.
-/

namespace BranchCutPrice.Heap

variable {α : Type}

/-- Whether the entry at one position comes before the entry at another. -/
def ordered (before : α → α → Bool) (items : List α) (i j : Nat) : Bool :=
  match items[i]?, items[j]? with
  | some a, some b => before a b
  | _, _ => false

def exchange (items : List α) (i j : Nat) : List α :=
  match items[i]?, items[j]? with
  | some a, some b => (items.set i b).set j a
  | _, _ => items

def parent (i : Nat) : Nat :=
  (i - 1) / 2

/-- The child that may stand above the other one, the right one if both may. -/
def upperChild (before : α → α → Bool) (items : List α) (i : Nat) : Nat :=
  let left := 2 * i + 1
  let right := left + 1
  if right < items.length && !ordered before items left right then right else left

/-- Moves an entry up past the parents that it comes before. -/
def siftUp (before : α → α → Bool) : (steps : Nat) → List α → Nat → List α
  | 0, items, _ => items
  | steps + 1, items, i =>
      if ordered before items i (parent i) then
        siftUp before steps (exchange items i (parent i)) (parent i)
      else items

/-- Moves an entry down past the children that come before it. -/
def siftDown (before : α → α → Bool) : (steps : Nat) → List α → Nat → List α
  | 0, items, _ => items
  | steps + 1, items, i =>
      let child := upperChild before items i
      if ordered before items child i then
        siftDown before steps (exchange items i child) child
      else items

/-- Moves an entry down to a position without children, past upper children, and
gives that position. -/
def sinkToBottom (before : α → α → Bool) : (steps : Nat) → List α → Nat → List α × Nat
  | 0, items, i => (items, i)
  | steps + 1, items, i =>
      let child := upperChild before items i
      if child < items.length then sinkToBottom before steps (exchange items i child) child
      else (items, i)

/-- Puts an entry in. -/
def insert (before : α → α → Bool) (items : List α) (a : α) : List α :=
  siftUp before items.length (items ++ [a]) items.length

/-- Takes the entry at a position out. The last entry takes its place, sinks to the
bottom and is sifted up from there. -/
def removeAt (before : α → α → Bool) (items : List α) (i : Nat) : List α :=
  let rest := (exchange items i (items.length - 1)).dropLast
  if i < rest.length then
    let (sunk, bottom) := sinkToBottom before rest.length rest i
    siftUp before bottom sunk bottom
  else rest

/-- Brings any list into the layout of a heap, the deepest parents first. -/
def rebuild (before : α → α → Bool) (items : List α) : List α :=
  (List.range (items.length / 2)).foldr
    (fun i built => siftDown before items.length built i) items

/-- Restores the layout behind a leading part that has it. Entries are sifted up
one by one if that saves comparisons, else all is rebuilt. -/
def restore (before : α → α → Bool) (items : List α) (sound : Nat) : List α :=
  let loose := items.length - sound
  let depth := if items.length ≤ 2048 then sound.log2 else 11
  if loose = 0 then items
  else if sound < loose || 2 * items.length < loose * depth then rebuild before items
  else (List.range' sound loose).foldl (fun sifted i => siftUp before i sifted i) items

/-- Keeps the entries that satisfy a predicate. -/
def retain (before : α → α → Bool) (keep : α → Bool) (items : List α) : List α :=
  restore before (items.filter keep) (items.takeWhile keep).length

end BranchCutPrice.Heap
