/-!
Stable sorting by a Boolean order: an element moves ahead of those that it comes
strictly before, and elements that neither precede keep their order.
-/

namespace BranchCutPrice.Ranking

variable {α : Type}

/-- Puts an element ahead of the first one that it may stand before. -/
def insert (before : α → α → Bool) (a : α) : List α → List α
  | [] => [a]
  | b :: rest => if before b a then b :: insert before a rest else a :: b :: rest

/-- Sorts so that nothing stands behind an element that comes strictly after it. -/
def sort (before : α → α → Bool) : List α → List α
  | [] => []
  | a :: rest => insert before a (sort before rest)

/-- Bisects `size` positions from `base` on, keeping the last position known to
hold as `base`. Each round at least halves the rest, so `rounds` may be `size`. -/
def bisect (holds : Nat → Bool) : (rounds size base : Nat) → Nat
  | 0, _, base => base
  | rounds + 1, size, base =>
      if size ≤ 1 then base
      else
        let half := size / 2
        bisect holds rounds (size - half) (if holds (base + half) then base + half else base)

/-- The length of the leading part of a list that satisfies a predicate, found by
bisection: right if no element that satisfies it follows one that does not. -/
def partitionPoint (holds : α → Bool) (items : List α) : Nat :=
  let holdsAt i := items[i]?.any holds
  let last := bisect holdsAt items.length items.length 0
  if holdsAt last then last + 1 else last

/-- Inserts an element at a position of a list. -/
def insertAt (items : List α) (position : Nat) (a : α) : List α :=
  items.take position ++ a :: items.drop position

end BranchCutPrice.Ranking
