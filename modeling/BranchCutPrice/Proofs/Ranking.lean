import BranchCutPrice.Numeric.Ranking
import Mathlib.Data.List.Sort

/-!
Sorting and bisecting. The sort is the stable sort of the standard library, so lists may be
filtered before or after they are sorted. Bisection finds where the leading part of a list ends
that satisfies a predicate.
-/

namespace BranchCutPrice.Ranking

variable {α : Type} {before : α → α → Bool}

/-! ### Permutations -/

theorem insert_perm (before : α → α → Bool) (a : α) (items : List α) :
    (insert before a items).Perm (a :: items) := by
  induction items with
  | nil => rfl
  | cons b rest ih =>
    unfold insert
    split
    · exact (ih.cons b).trans (List.Perm.swap a b rest)
    · rfl

theorem sort_perm (before : α → α → Bool) (items : List α) : (sort before items).Perm items := by
  induction items with
  | nil => rfl
  | cons a rest ih => exact (insert_perm before a _).trans (ih.cons a)

theorem insertAt_perm (items : List α) (position : Nat) (a : α) :
    (insertAt items position a).Perm (a :: items) := by
  unfold insertAt
  refine List.perm_middle.trans ?_
  rw [List.take_append_drop]

/-! ### Order -/

section Order

variable {R : α → α → Prop}

theorem insert_pairwise (ahead : ∀ a b, before b a = true → R b a)
    (behind : ∀ a b, before b a = false → R a b) (trans : ∀ a b c, R a b → R b c → R a c)
    (a : α) {items : List α} (ordered : items.Pairwise R) :
    (insert before a items).Pairwise R := by
  induction items with
  | nil => exact List.pairwise_singleton R a
  | cons b rest ih =>
    obtain ⟨first, later⟩ := List.pairwise_cons.1 ordered
    unfold insert
    split
    · rename_i stays
      refine List.pairwise_cons.2 ⟨fun c member => ?_, ih later⟩
      obtain rfl | old := List.mem_cons.1 ((insert_perm before a rest).mem_iff.1 member)
      · exact ahead _ b stays
      · exact first c old
    · rename_i passes
      have next : R a b := behind a b (Bool.eq_false_iff.2 passes)
      refine List.pairwise_cons.2 ⟨fun c member => ?_, ordered⟩
      obtain rfl | old := List.mem_cons.1 member
      · exact next
      · exact trans a b c next (first c old)

theorem sort_pairwise (ahead : ∀ a b, before b a = true → R b a)
    (behind : ∀ a b, before b a = false → R a b) (trans : ∀ a b c, R a b → R b c → R a c)
    (items : List α) : (sort before items).Pairwise R := by
  induction items with
  | nil => exact .nil
  | cons a rest ih => exact insert_pairwise ahead behind trans a ih

end Order

/-! ### Stability -/

/-- A strict order in which elements that neither precede each other are alike. -/
structure Weak (before : α → α → Bool) : Prop where
  asymm : ∀ a b, before a b = true → before b a = false
  trans : ∀ a b c, before b a = false → before c b = false → before c a = false

/-- What ranks higher comes first. -/
theorem Weak.of_rank (rank : α → Int) : Weak fun a b => decide (rank b < rank a) := by
  constructor
  · intro a b precedes
    simp only [decide_eq_true_eq, decide_eq_false_iff_not] at precedes ⊢
    exact precedes.le.not_gt
  · intro a b c first second
    simp only [decide_eq_false_iff_not, not_lt] at first second ⊢
    exact second.trans first

theorem insert_append (a : α) {front rest : List α} (ahead : ∀ b ∈ front, before b a = true)
    (behind : ∀ b ∈ rest, before b a = false) :
    insert before a (front ++ rest) = front ++ a :: rest := by
  induction front with
  | nil =>
    cases rest with
    | nil => rfl
    | cons b rest =>
      have stays : ¬before b a = true := Bool.eq_false_iff.1 (behind b List.mem_cons_self)
      exact if_neg stays
  | cons b front ih =>
    obtain ⟨here, later⟩ := List.forall_mem_cons.1 ahead
    rw [List.cons_append, insert, if_pos here, ih later]
    rfl

/-- The sort is the one of the standard library. -/
theorem sort_eq_mergeSort (weak : Weak before) (items : List α) :
    sort before items = items.mergeSort fun a b => !before b a := by
  have trans (a b c : α) (first : (!before b a) = true) (second : (!before c b) = true) :
      (!before c a) = true := by
    rw [Bool.not_eq_true'] at *
    exact weak.trans a b c first second
  have total (a b : α) : (!before b a || !before a b) = true := by
    cases precedes : before b a with
    | false => rfl
    | true => simp [weak.asymm b a precedes]
  induction items with
  | nil => simp [sort]
  | cons a items ih =>
    obtain ⟨front, rest, sorted, same, ahead⟩ := List.mergeSort_cons trans total a items
    have ordered := List.pairwise_mergeSort trans total (a :: items)
    rw [sorted] at ordered
    rw [sorted, sort, ih, same]
    apply insert_append
    · intro b member
      simpa using ahead b member
    · intro b member
      have follows := (List.pairwise_cons.1 (List.pairwise_append.1 ordered).2.1).1 b member
      simpa using follows

/-- Where nothing that satisfies a predicate follows what does not, a leading part of the list
satisfies it. -/
theorem exists_leading {p : α → Prop} {items : List α}
    (leads : items.Pairwise fun a b => p b → p a) : ∃ front rest,
      items = front ++ rest ∧ (∀ a ∈ front, p a) ∧ ∀ a ∈ rest, ¬p a := by
  induction items with
  | nil => exact ⟨[], [], rfl, nofun, nofun⟩
  | cons a items ih =>
    obtain ⟨first, later⟩ := List.pairwise_cons.1 leads
    by_cases holds : p a
    · obtain ⟨front, rest, rfl, ahead, behind⟩ := ih later
      exact ⟨a :: front, rest, rfl, List.forall_mem_cons.2 ⟨holds, ahead⟩, behind⟩
    · refine ⟨[], a :: items, rfl, nofun, List.forall_mem_cons.2 ⟨holds, fun b member passes => ?_⟩⟩
      exact holds (first b member passes)

/-- An element is inserted between those that it may not stand before and the others. -/
theorem exists_insert (weak : Weak before) (a : α) {items : List α}
    (ordered : items.Pairwise fun b c => before c b = false) : ∃ front rest,
      items = front ++ rest ∧ (∀ b ∈ front, before b a = true) ∧
        ∀ b ∈ rest, before b a = false := by
  have leads : items.Pairwise fun b c => before c a = true → before b a = true := by
    refine ordered.imp fun {b c} follows precedes => ?_
    by_contra stays
    rw [weak.trans a b c (Bool.eq_false_iff.2 stays) follows] at precedes
    cases precedes
  obtain ⟨front, rest, same, ahead, behind⟩ := exists_leading leads
  exact ⟨front, rest, same, ahead, fun b member => Bool.eq_false_iff.2 (behind b member)⟩

theorem sort_ordered (weak : Weak before) (items : List α) :
    (sort before items).Pairwise fun b c => before c b = false :=
  sort_pairwise (fun _ _ precedes => weak.asymm _ _ precedes) (fun _ _ follows => follows)
    weak.trans items

/-- What is left of a sorted list is as if it had been sorted alone. -/
theorem filter_sort (weak : Weak before) (p : α → Bool) (items : List α) :
    (sort before items).filter p = sort before (items.filter p) := by
  induction items with
  | nil => rfl
  | cons a items ih =>
    obtain ⟨front, rest, same, ahead, behind⟩ := exists_insert weak a (sort_ordered weak items)
    rw [sort, same, insert_append a ahead behind]
    rw [same, List.filter_append] at ih
    cases keeps : p a with
    | true =>
      rw [List.filter_append, List.filter_cons_of_pos keeps, List.filter_cons_of_pos keeps, sort,
        ← ih]
      refine (insert_append a (fun b member => ?_) fun b member => ?_).symm
      · exact ahead b (List.mem_of_mem_filter member)
      · exact behind b (List.mem_of_mem_filter member)
    | false =>
      have drops : ¬p a = true := Bool.eq_false_iff.1 keeps
      rw [List.filter_append, List.filter_cons_of_neg drops, List.filter_cons_of_neg drops, ih]

theorem insert_congr {before' : α → α → Bool} (a : α) {items : List α}
    (same : ∀ b ∈ items, before b a = before' b a) :
    insert before a items = insert before' a items := by
  induction items with
  | nil => rfl
  | cons b rest ih =>
    obtain ⟨here, later⟩ := List.forall_mem_cons.1 same
    rw [insert, insert, here, ih later]

/-- Only the elements of a list matter to its order. -/
theorem sort_congr {before' : α → α → Bool} {items : List α}
    (same : ∀ a ∈ items, ∀ b ∈ items, before b a = before' b a) :
    sort before items = sort before' items := by
  induction items with
  | nil => rfl
  | cons a rest ih =>
    rw [sort, sort, ih fun b member c other =>
      same b (List.mem_cons_of_mem a member) c (List.mem_cons_of_mem a other)]
    apply insert_congr
    intro b member
    have listed : b ∈ rest := (sort_perm before' rest).mem_iff.1 member
    exact same a List.mem_cons_self b (List.mem_cons_of_mem a listed)

theorem insert_map {β : Type} (f : β → α) (a : β) (items : List β) :
    insert before (f a) (items.map f) =
      (insert (fun a b => before (f a) (f b)) a items).map f := by
  induction items with
  | nil => rfl
  | cons b rest ih =>
    rw [List.map_cons, insert, insert, ih]
    split <;> rfl

/-- Images are sorted by what they are images of. -/
theorem sort_map {β : Type} (f : β → α) (items : List β) :
    sort before (items.map f) = (sort (fun a b => before (f a) (f b)) items).map f := by
  induction items with
  | nil => rfl
  | cons a rest ih => rw [List.map_cons, sort, sort, ih, insert_map]

/-! ### Bisection -/

/-- Bisection keeps the end of the leading part within its range. -/
theorem bisect_bounds {holds : Nat → Bool} {stop : Nat} (leads : ∀ i, holds i = decide (i < stop))
    {rounds size base : Nat} (enough : size ≤ rounds + 1) (low : base ≤ stop)
    (high : stop ≤ base + size) :
    bisect holds rounds size base ≤ stop ∧ stop ≤ bisect holds rounds size base + 1 := by
  induction rounds generalizing size base with
  | zero => exact ⟨low, high.trans (Nat.add_le_add_left enough base)⟩
  | succ rounds ih =>
    unfold bisect
    split
    · rename_i single
      exact ⟨low, high.trans (Nat.add_le_add_left single base)⟩
    · dsimp only
      rw [leads]
      by_cases passes : base + size / 2 < stop
      · rw [if_pos (decide_eq_true passes)]
        apply ih <;> omega
      · rw [if_neg (by simpa using passes)]
        apply ih <;> omega

/-- The leading part that satisfies a predicate ends where the rest begins. -/
theorem partitionPoint_append {holds : α → Bool} {front rest : List α}
    (ahead : ∀ a ∈ front, holds a = true) (behind : ∀ a ∈ rest, holds a = false) :
    partitionPoint holds (front ++ rest) = front.length := by
  have leads (i : Nat) :
      ((front ++ rest)[i]?.any holds) = decide (i < front.length) := by
    by_cases inside : i < front.length
    · rw [List.getElem?_append_left inside, List.getElem?_eq_getElem inside, decide_eq_true inside]
      exact ahead _ (List.getElem_mem inside)
    · rw [List.getElem?_append_right (Nat.le_of_not_lt inside), decide_eq_false inside]
      cases found : rest[i - front.length]? with
      | none => rfl
      | some a => exact behind a (List.mem_of_getElem? found)
  have bounds := bisect_bounds leads (Nat.le_succ (front ++ rest).length) (Nat.zero_le _)
    (by simp)
  unfold partitionPoint
  dsimp only
  generalize bisect _ _ _ _ = last at bounds ⊢
  by_cases inside : last < front.length
  · rw [if_pos ((leads last).trans (decide_eq_true inside))]
    omega
  · rw [if_neg (Bool.eq_false_iff.1 ((leads last).trans (decide_eq_false inside)))]
    omega

end BranchCutPrice.Ranking
