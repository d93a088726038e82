import BranchCutPrice.Linear.Column
import BranchCutPrice.Proofs.Doubles

/-!
Inner products of sparse vectors. Two cursors go over both index lists at once: the one at the
smaller index moves on, and where they meet the product of the two values is added. The walk always
ends, and the inner product is what it ends with. If the indices go up strictly, no turn steps over
a common index, so that the inner product adds up the products at all of them.
-/

namespace BranchCutPrice

namespace SparseVec

/-! ### The walk -/

/-- Two cursors on their way over two vectors, and the total of the products added so far. -/
structure Cursors where
  left : Nat
  right : Nat
  total : Float

def Cursors.start : Cursors :=
  ⟨0, 0, 0.0⟩

/-- The value at an index, zero where the vector has no entry. -/
def coefficient (vec : SparseVec) (i : Nat) : Float :=
  (vec.entries.lookup i).getD 0.0

/-- The indices of one list that occur in the other, in order. -/
def common (left right : List Nat) : List Nat :=
  left.filter (· ∈ right)

section

variable (left right : SparseVec)

/-- Neither cursor is at the end of its list. -/
def Inside (cursors : Cursors) : Prop :=
  cursors.left < left.indices.length ∧ cursors.right < right.indices.length

/-- One turn. The cursor at the smaller index moves on; at a common index the product of the two
values is added and both move on. A read out of range leaves no place to go on from. -/
def turn (cursors : Cursors) : Option Cursors := do
  let i ← left.indices[cursors.left]?
  let j ← right.indices[cursors.right]?
  match compare i j with
  | .lt => return { cursors with left := cursors.left + 1 }
  | .gt => return { cursors with right := cursors.right + 1 }
  | .eq =>
    let a ← left.values[cursors.left]?
    let b ← right.values[cursors.right]?
    return ⟨cursors.left + 1, cursors.right + 1, cursors.total + a * b⟩

/-- A walk from some cursors on. It takes turns as long as both cursors are inside their lists,
all reads of which are in range, and ends with a total. -/
inductive Walks : Cursors → (turns : Nat) → (total : Float) → Prop
  | ended {cursors : Cursors} (outside : ¬Inside left right cursors) :
      Walks cursors 0 cursors.total
  | turned {cursors next : Cursors} {turns : Nat} {total : Float}
      (inside : Inside left right cursors) (turned : left.turn right cursors = some next)
      (onward : Walks next turns total) : Walks cursors (turns + 1) total

/-- The number of entries that the cursors have before them. -/
def ahead (cursors : Cursors) : Nat :=
  (left.entries.length - cursors.left) + (right.entries.length - cursors.right)

/-- What the inner product of the entries ahead makes of the total. -/
def dotAhead (cursors : Cursors) : Float :=
  dotFrom cursors.total (left.entries.drop cursors.left) (right.entries.drop cursors.right)

/-- What the products at the common indices ahead make of the total. -/
def joinAhead (cursors : Cursors) : Float :=
  (common (left.indices.drop cursors.left) (right.indices.drop cursors.right)).foldl
    (fun total i => total + left.coefficient i * right.coefficient i) cursors.total

end

variable {left right : SparseVec} {cursors next : Cursors} {turns : Nat} {total : Float}

/-- Inside both lists all reads are in range. -/
theorem turn_succeeds (inside : Inside left right cursors) :
    ∃ next, left.turn right cursors = some next := by
  obtain ⟨within, within'⟩ := inside
  rw [indices, List.length_map] at within within'
  simp only [turn, indices, values, List.getElem?_map, List.getElem?_eq_getElem within,
    List.getElem?_eq_getElem within', Option.map_some, bind, Option.bind_some, pure]
  split <;> exact ⟨_, rfl⟩

/-- The three ways that a turn can go. -/
theorem turn_cases (turned : left.turn right cursors = some next) : ∃ i a j b,
    left.entries[cursors.left]? = some (i, a) ∧ right.entries[cursors.right]? = some (j, b) ∧
    (i < j ∧ next = { cursors with left := cursors.left + 1 } ∨
      j < i ∧ next = { cursors with right := cursors.right + 1 } ∨
      i = j ∧ next = ⟨cursors.left + 1, cursors.right + 1, cursors.total + a * b⟩) := by
  unfold turn indices values at turned
  simp only [List.getElem?_map] at turned
  rcases found : left.entries[cursors.left]? with _ | ⟨i, a⟩
  · simp [found] at turned
  rcases found' : right.entries[cursors.right]? with _ | ⟨j, b⟩
  · simp [found, found'] at turned
  simp only [found, found', Option.map_some, bind, Option.bind_some, pure] at turned
  refine ⟨i, a, j, b, rfl, rfl, ?_⟩
  obtain less | rfl | greater := lt_trichotomy i j
  · rw [compare_lt_iff_lt.2 less] at turned
    exact .inl ⟨less, (Option.some.inj turned).symm⟩
  · rw [compare_eq_iff_eq.2 rfl] at turned
    exact .inr (.inr ⟨rfl, (Option.some.inj turned).symm⟩)
  · rw [compare_gt_iff_gt.2 greater] at turned
    exact .inr (.inl ⟨greater, (Option.some.inj turned).symm⟩)

theorem ahead_turn (turned : left.turn right cursors = some next) :
    left.ahead right next < left.ahead right cursors := by
  obtain ⟨i, a, j, b, found, found', way⟩ := turn_cases turned
  have within := (List.getElem?_eq_some_iff.1 found).1
  have within' := (List.getElem?_eq_some_iff.1 found').1
  obtain ⟨_, rfl⟩ | ⟨_, rfl⟩ | ⟨_, rfl⟩ := way <;> simp only [ahead] <;> omega

/-- A walk ends with whatever its turns keep, if past the end of a list that is the total. -/
theorem Walks.total_eq {kept : Cursors → Float} (walks : Walks left right cursors turns total)
    (turning : ∀ cursors next, left.turn right cursors = some next → kept next = kept cursors)
    (ending : ∀ cursors, ¬Inside left right cursors → kept cursors = cursors.total) :
    total = kept cursors := by
  induction walks with
  | ended outside => rw [ending _ outside]
  | turned inside turned onward ih => rw [ih, turning _ _ turned]

/-! ### The end of the walk -/

theorem drop_of_entry {α : Type} {items : List α} {p : Nat} {item : α}
    (found : items[p]? = some item) : items.drop p = item :: items.drop (p + 1) := by
  rw [List.drop_eq_getElem?_toList_append, found]
  rfl

theorem dotFrom_nil_right (total : Float) (entries : List (Nat × Float)) :
    dotFrom total entries [] = total := by
  cases entries <;> rfl

/-- The three ways of a turn, on the entries ahead. -/
theorem dotFrom_cons_cons (total : Float) (i j : Nat) (a b : Float)
    (rest rest' : List (Nat × Float)) : dotFrom total ((i, a) :: rest) ((j, b) :: rest') =
      if i < j then dotFrom total rest ((j, b) :: rest')
      else if j < i then dotFrom total ((i, a) :: rest) rest'
      else dotFrom (total + a * b) rest rest' := by
  obtain less | rfl | greater := lt_trichotomy i j
  · simp [dotFrom, less, less.le, less.ne]
  · simp [dotFrom]
  · simp [dotFrom, greater, greater.le]

theorem dotAhead_turn (turned : left.turn right cursors = some next) :
    left.dotAhead right next = left.dotAhead right cursors := by
  obtain ⟨i, a, j, b, found, found', way⟩ := turn_cases turned
  unfold dotAhead
  rw [drop_of_entry found, drop_of_entry found', dotFrom_cons_cons]
  obtain ⟨less, rfl⟩ | ⟨greater, rfl⟩ | ⟨rfl, rfl⟩ := way
  · rw [if_pos less, ← drop_of_entry found']
  · rw [if_neg greater.not_gt, if_pos greater, ← drop_of_entry found]
  · rw [if_neg (lt_irrefl i), if_neg (lt_irrefl i)]

theorem dotAhead_outside (outside : ¬Inside left right cursors) :
    left.dotAhead right cursors = cursors.total := by
  simp only [Inside, indices, List.length_map, not_and_or, not_lt] at outside
  unfold dotAhead
  obtain ended | ended := outside
  · rw [List.drop_eq_nil_of_le ended]
    rfl
  · rw [List.drop_eq_nil_of_le ended, dotFrom_nil_right]

/-- From anywhere on the walk ends, after at most as many turns as there are entries ahead. -/
theorem walks_dotAhead (left right : SparseVec) (cursors : Cursors) :
    ∃ turns ≤ left.ahead right cursors,
      Walks left right cursors turns (left.dotAhead right cursors) := by
  generalize bound : left.ahead right cursors = limit
  induction limit using Nat.strong_induction_on generalizing cursors with
  | _ limit ih =>
    by_cases inside : Inside left right cursors
    · obtain ⟨next, turned⟩ := turn_succeeds inside
      have closer := ahead_turn turned
      obtain ⟨turns, few, onward⟩ := ih _ (bound ▸ closer) next rfl
      rw [dotAhead_turn turned] at onward
      exact ⟨turns + 1, by omega, .turned inside turned onward⟩
    · refine ⟨0, Nat.zero_le _, ?_⟩
      rw [dotAhead_outside inside]
      exact .ended inside

/-! ### The common indices -/

section

variable {i j : Nat} {indices rest rest' : List Nat}

/-- An index below the first one of an increasing list is not in it. -/
theorem notMem_of_lt (less : i < j) (later : ∀ k ∈ rest, j < k) : i ∉ j :: rest := by
  rintro (_ | ⟨_, member⟩)
  · exact less.false
  · exact less.not_gt (later i member)

theorem common_without (missing : j ∉ indices) :
    common indices (j :: rest') = common indices rest' := by
  refine List.filter_congr fun k member => ?_
  have other : k ≠ j := fun same => missing (same ▸ member)
  simp [other]

theorem common_of_lt (less : i < j) (later : ∀ k ∈ rest', j < k) :
    common (i :: rest) (j :: rest') = common rest (j :: rest') :=
  List.filter_cons_of_neg (by simpa using notMem_of_lt less later)

theorem common_of_gt (greater : j < i) (later : ∀ k ∈ rest, i < k) :
    common (i :: rest) (j :: rest') = common (i :: rest) rest' :=
  common_without (notMem_of_lt greater later)

theorem common_of_eq (later : ∀ k ∈ rest, i < k) :
    common (i :: rest) (i :: rest') = i :: common rest rest' := by
  have fresh : i ∉ rest := fun member => (later i member).false
  calc common (i :: rest) (i :: rest') = i :: common rest (i :: rest') :=
        List.filter_cons_of_pos (by simp)
    _ = i :: common rest rest' := by rw [common_without fresh]

end

theorem coefficient_of_entry {vec : SparseVec} (increasing : vec.indices.Pairwise (· < ·))
    {p i : Nat} {a : Float} (found : vec.entries[p]? = some (i, a)) : vec.coefficient i = a := by
  have split : vec.entries = vec.entries.take p ++ (i, a) :: vec.entries.drop (p + 1) := by
    rw [← drop_of_entry found, List.take_append_drop]
  have looked : vec.entries.lookup i = some a := by
    refine List.lookup_eq_some_iff.2 ⟨_, _, split, fun entry before => ?_⟩
    rw [indices, split, List.map_append, List.pairwise_append] at increasing
    have below := increasing.2.2 entry.1 (List.mem_map_of_mem before) i (by simp)
    simp [below.ne']
  rw [coefficient, looked]
  rfl

/-- A turn steps over no common index, if the indices of both vectors go up strictly. -/
theorem joinAhead_turn (increasing : left.indices.Pairwise (· < ·))
    (increasing' : right.indices.Pairwise (· < ·)) (turned : left.turn right cursors = some next) :
    left.joinAhead right next = left.joinAhead right cursors := by
  obtain ⟨i, a, j, b, found, found', way⟩ := turn_cases turned
  have here : left.indices.drop cursors.left = i :: left.indices.drop (cursors.left + 1) :=
    drop_of_entry (by simp [indices, found])
  have here' : right.indices.drop cursors.right = j :: right.indices.drop (cursors.right + 1) :=
    drop_of_entry (by simp [indices, found'])
  have later := (List.pairwise_cons.1 (here ▸ increasing.drop)).1
  have later' := (List.pairwise_cons.1 (here' ▸ increasing'.drop)).1
  unfold joinAhead
  rw [here, here']
  obtain ⟨less, rfl⟩ | ⟨greater, rfl⟩ | ⟨rfl, rfl⟩ := way
  -- the smaller index is not ahead of the other cursor, where all indices are larger still
  · rw [common_of_lt less later', ← here']
  · rw [common_of_gt greater later, ← here]
  · rw [common_of_eq later, List.foldl_cons, coefficient_of_entry increasing found,
      coefficient_of_entry increasing' found']

theorem joinAhead_outside (outside : ¬Inside left right cursors) :
    left.joinAhead right cursors = cursors.total := by
  rw [Inside, not_and_or, not_lt, not_lt] at outside
  unfold joinAhead common
  obtain ended | ended := outside
  · rw [List.drop_eq_nil_of_le ended]
    rfl
  · simp [List.drop_eq_nil_of_le ended]

/-! ### Symmetry -/

theorem dotFrom_comm (total : Float) (entries entries' : List (Nat × Float)) :
    dotFrom total entries entries' = dotFrom total entries' entries := by
  induction entries generalizing total entries' with
  | nil => rw [dotFrom_nil_right, dotFrom]
  | cons entry rest ih =>
    induction entries' with
    | nil => rw [dotFrom_nil_right, dotFrom]
    | cons entry' rest' ih' =>
      obtain ⟨i, a⟩ := entry
      obtain ⟨j, b⟩ := entry'
      rw [dotFrom_cons_cons, dotFrom_cons_cons, ih, ih, ih', Double.mul_comm]
      obtain less | rfl | greater := lt_trichotomy i j
      · rw [if_pos less, if_neg less.not_gt, if_pos less]
      · simp only [lt_irrefl, if_false]
      · rw [if_neg greater.not_gt, if_pos greater, if_pos greater]

theorem dot_comm (left right : SparseVec) : left.dot right = right.dot left :=
  dotFrom_comm 0.0 left.entries right.entries

end SparseVec

theorem Column.orthogonality_comm (left right : Column) :
    left.orthogonality right = right.orthogonality left := by
  unfold orthogonality
  rw [Double.mul_comm left.norm, SparseVec.dot_comm]

/-- The walk of two cursors over two vectors ends, after at most as many turns as there are entries
and with all reads in range, and it ends with the inner product. If the indices of both vectors go
up strictly, that is the sum of the products at the common indices, added in ascending order to
positive zero. The inner product is symmetric, and so is the orthogonality of columns. -/
theorem common_products_summed :
    (∀ left right : SparseVec,
      (∃ turns ≤ left.entries.length + right.entries.length,
        left.Walks right .start turns (left.dot right)) ∧
      (∀ turns total, left.Walks right .start turns total → total = left.dot right) ∧
      (left.indices.Pairwise (· < ·) → right.indices.Pairwise (· < ·) →
        (SparseVec.common left.indices right.indices).Pairwise (· < ·) ∧
        left.dot right = (SparseVec.common left.indices right.indices).foldl
          (fun total i => total + left.coefficient i * right.coefficient i) 0.0) ∧
      left.dot right = right.dot left) ∧
    ∀ left right : Column, left.orthogonality right = right.orthogonality left := by
  refine ⟨fun left right => ?_, Column.orthogonality_comm⟩
  obtain ⟨turns, few, walks⟩ := SparseVec.walks_dotAhead left right .start
  refine ⟨⟨turns, few, walks⟩, fun _ _ other => ?_, fun increasing increasing' => ?_,
    SparseVec.dot_comm left right⟩
  · exact other.total_eq (fun _ _ => SparseVec.dotAhead_turn) fun _ => SparseVec.dotAhead_outside
  · have joined := walks.total_eq (fun _ _ => SparseVec.joinAhead_turn increasing increasing')
      fun _ => SparseVec.joinAhead_outside
    exact ⟨increasing.filter _, joined⟩

/-- The products are added in ascending order, where the first one is lost beside the second. -/
theorem common_products_summed_absorbed :
    let left : SparseVec := ⟨8, [(1, 1.0), (2, 3.0), (4, 1e16), (6, -1e16)]⟩
    let right : SparseVec := ⟨8, [(0, 2.0), (1, 1.0), (4, 1.0), (5, 7.0), (6, 1.0)]⟩
    left.indices.Pairwise (· < ·) ∧ right.indices.Pairwise (· < ·) ∧
      (∃ turns ≤ 9, left.Walks right .start turns (left.dot right)) ∧
      SparseVec.common left.indices right.indices = [1, 4, 6] ∧
      left.dot right = 0.0 ∧ right.dot left = 0.0 := by
  intro left right
  have increasing : left.indices.Pairwise (· < ·) := by decide
  have increasing' : right.indices.Pairwise (· < ·) := by decide
  obtain ⟨walks, -, summed, comm⟩ := common_products_summed.1 left right
  have zero : left.dot right = 0.0 :=
    (summed increasing increasing').2.trans (by decide +kernel)
  exact ⟨increasing, increasing', walks, by decide, zero, comm ▸ zero⟩

end BranchCutPrice
