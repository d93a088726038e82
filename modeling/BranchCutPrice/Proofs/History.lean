import BranchCutPrice.Proofs.Moves

/-!
The history of a slot. Its generation says how often it was emptied, counted as 32 bits
can count. Moves that only add nodes leave the generation, and moves that only remove nodes
raise it by one exactly if they empty the slot.
-/

namespace BranchCutPrice

namespace SlotTable

variable {kind : Kind} {α : Type}

/-- The generation of a slot, also of one that is still to come. -/
def generationAt (table : SlotTable kind α) (i : Nat) : UInt32 :=
  (table.slots[i]?.map Slot.generation).getD 0

def occupiedAt (table : SlotTable kind α) (i : Nat) : Bool :=
  (table.slots[i]?.bind Slot.content).isSome

/-- Whether a slot is occupied in the first table and empty in the second one. -/
def emptiedAt (table table' : SlotTable kind α) (i : Nat) : Bool :=
  table.occupiedAt i && !table'.occupiedAt i

/-- A handle names what its slot holds in its generation. -/
theorem contains_iff_slot {table : SlotTable kind α} {handle : Handle kind} :
    table.contains handle = true ↔ table.occupiedAt handle.index = true ∧
      table.generationAt handle.index = handle.generation := by
  unfold contains get? occupiedAt generationAt
  cases table.slots[handle.index]? with
  | none => simp
  | some slot =>
    dsimp only [Option.bind_some, Option.map_some, Option.getD_some]
    by_cases current : slot.generation = handle.generation
    · simp [current]
    · simp [current]

variable (table : SlotTable kind α)

private theorem generationAt_replace (i j : Nat) (new : Slot α)
    (same : table.generationAt i = new.generation) :
    ((table.slots.setIfInBounds i new)[j]?.map Slot.generation).getD 0 = table.generationAt j := by
  rw [Array.getElem?_setIfInBounds]
  by_cases here : i = j
  · subst here
    rw [if_pos rfl]
    by_cases inside : i < table.slots.size
    · rw [if_pos inside, same]
      rfl
    · rw [if_neg inside]
      unfold generationAt
      rw [Array.getElem?_eq_none (Nat.le_of_not_lt inside)]
  · rw [if_neg here]
    rfl

theorem generationAt_set (handle : Handle kind) (a : α) (i : Nat) :
    (table.set handle a).generationAt i = table.generationAt i := by
  unfold set
  by_cases live : table.contains handle = true
  · rw [if_pos live]
    exact generationAt_replace table handle.index i _ (contains_iff_slot.1 live).2
  · rw [if_neg live]

theorem occupiedAt_set (handle : Handle kind) (a : α) (i : Nat) :
    (table.set handle a).occupiedAt i = table.occupiedAt i := by
  unfold set
  by_cases live : table.contains handle = true
  · rw [if_pos live]
    have here := (contains_iff_slot.1 live).1
    unfold occupiedAt at here ⊢
    dsimp only
    rw [Array.getElem?_setIfInBounds]
    by_cases same : handle.index = i
    · subst same
      rw [if_pos rfl, here]
      by_cases inside : handle.index < table.slots.size
      · rw [if_pos inside]
        rfl
      · rw [Array.getElem?_eq_none (Nat.le_of_not_lt inside)] at here
        cases here
    · rw [if_neg same]
  · rw [if_neg live]

theorem generationAt_insert (a : α) (i : Nat) :
    (table.insert a).2.generationAt i = table.generationAt i := by
  unfold insert
  cases table.free with
  | cons slot free => exact generationAt_replace table slot.toNat i _ rfl
  | nil =>
    unfold generationAt
    dsimp only
    rw [Array.getElem?_push]
    by_cases new : i = table.slots.size
    · rw [if_pos new, new, Array.getElem?_eq_none (Nat.le_refl _)]
      rfl
    · rw [if_neg new]

theorem occupiedAt_insert (a : α) {i : Nat} (occupied : table.occupiedAt i = true) :
    (table.insert a).2.occupiedAt i = true := by
  unfold insert
  cases table.free with
  | cons slot free =>
    unfold occupiedAt at occupied ⊢
    dsimp only
    rw [Array.getElem?_setIfInBounds]
    by_cases here : slot.toNat = i
    · subst here
      rw [if_pos rfl]
      by_cases inside : slot.toNat < table.slots.size
      · rw [if_pos inside]
        rfl
      · rw [Array.getElem?_eq_none (Nat.le_of_not_lt inside)] at occupied
        cases occupied
    · rw [if_neg here]
      exact occupied
  | nil =>
    unfold occupiedAt at occupied ⊢
    dsimp only
    rw [Array.getElem?_push]
    by_cases new : i = table.slots.size
    · rw [new, Array.getElem?_eq_none (Nat.le_refl _)] at occupied
      cases occupied
    · rw [if_neg new]
      exact occupied

/-! ### Growth and shrinkage -/

/-- What an insertion does to a slot, and a replacement. -/
structure Grows (table table' : SlotTable kind α) (i : Nat) : Prop where
  occupied : table.occupiedAt i = true → table'.occupiedAt i = true
  generation : table'.generationAt i = table.generationAt i

/-- What a removal does to a slot, and a replacement. -/
structure Thins (table table' : SlotTable kind α) (i : Nat) : Prop where
  occupied : table'.occupiedAt i = true → table.occupiedAt i = true
  generation : table'.generationAt i =
    table.generationAt i + if table.emptiedAt table' i then 1 else 0

variable {table} {table' table'' : SlotTable kind α} {i : Nat}

theorem Grows.rfl : Grows table table i :=
  ⟨id, Eq.refl _⟩

theorem Grows.trans (first : Grows table table' i) (second : Grows table' table'' i) :
    Grows table table'' i :=
  ⟨fun here => second.occupied (first.occupied here),
    second.generation.trans first.generation⟩

theorem Grows.emptiedAt (grows : Grows table table' i) : table.emptiedAt table' i = false := by
  unfold SlotTable.emptiedAt
  cases here : table.occupiedAt i with
  | false => exact Eq.refl _
  | true =>
    rw [grows.occupied here]
    exact Eq.refl _

theorem Thins.rfl : Thins table table i := by
  refine ⟨id, ?_⟩
  unfold SlotTable.emptiedAt
  cases table.occupiedAt i <;> simp

theorem Thins.trans (first : Thins table table' i) (second : Thins table' table'' i) :
    Thins table table'' i := by
  refine ⟨fun here => first.occupied (second.occupied here), ?_⟩
  have once := first.generation
  have twice := second.generation
  unfold SlotTable.emptiedAt at once twice ⊢
  -- what is empty in between is empty at the end
  cases middle : table'.occupiedAt i with
  | true =>
    rw [middle] at once twice
    rw [first.occupied middle] at once ⊢
    rw [twice, once]
    simp
  | false =>
    have last : table''.occupiedAt i = false := by
      cases last : table''.occupiedAt i with
      | false => exact Eq.refl _
      | true =>
        rw [second.occupied last] at middle
        cases middle
    rw [middle] at once twice
    rw [last] at twice ⊢
    rw [twice, once]
    simp

theorem grows_set (handle : Handle kind) (a : α) : Grows table (table.set handle a) i :=
  ⟨fun here => (occupiedAt_set table handle a i).trans here, generationAt_set table handle a i⟩

theorem grows_insert (a : α) : Grows table (table.insert a).2 i :=
  ⟨occupiedAt_insert table a, generationAt_insert table a i⟩

theorem thins_set (handle : Handle kind) (a : α) : Thins table (table.set handle a) i := by
  have same := occupiedAt_set table handle a i
  refine ⟨fun here => same.symm.trans here, ?_⟩
  unfold SlotTable.emptiedAt
  rw [generationAt_set, same]
  cases table.occupiedAt i <;> simp

theorem thins_erase (handle : Handle kind) : Thins table (table.erase handle) i := by
  unfold erase
  by_cases live : table.contains handle = true
  · rw [if_pos live]
    obtain ⟨here, current⟩ := contains_iff_slot.1 live
    have inside : handle.index < table.slots.size := by
      by_cases inside : handle.index < table.slots.size
      · exact inside
      · unfold occupiedAt at here
        rw [Array.getElem?_eq_none (Nat.le_of_not_lt inside)] at here
        cases here
    by_cases same : handle.index = i
    · subst same
      refine ⟨fun _ => here, ?_⟩
      unfold SlotTable.emptiedAt
      rw [here, current]
      unfold generationAt occupiedAt
      dsimp only
      rw [Array.getElem?_setIfInBounds, if_pos rfl, if_pos inside]
      rfl
    · constructor
      · unfold occupiedAt
        dsimp only
        rw [Array.getElem?_setIfInBounds, if_neg same]
        exact id
      · unfold SlotTable.emptiedAt generationAt occupiedAt
        dsimp only
        rw [Array.getElem?_setIfInBounds, if_neg same]
        cases (table.slots[i]?.bind Slot.content).isSome <;> simp
  · rw [if_neg live]
    exact .rfl

theorem thins_eraseAll (handles : List (Handle kind)) : Thins table (table.eraseAll handles) i := by
  induction handles generalizing table with
  | nil => exact .rfl
  | cons handle rest ih => exact (thins_erase handle).trans ih

end SlotTable

open SlotTable

theorem Move.grows {deed : Deed} {desk desk' : Desk} (move : Move deed desk desk')
    (growing : deed ≠ .fell) (i : Nat) : Grows desk.nodes desk'.nodes i := by
  cases move with
  | reload | adjust | load => exact .rfl
  | write | record | solve | flatten => exact grows_set _ _
  | plant => exact grows_insert _
  | sprout => exact (grows_set _ _).trans (grows_insert _)
  | fellRoot | fell | wipe => exact absurd rfl growing

theorem Move.thins {deed : Deed} {desk desk' : Desk} (move : Move deed desk desk')
    (shrinking : deed ≠ .sprout) (i : Nat) : Thins desk.nodes desk'.nodes i := by
  cases move with
  | reload | adjust | load => exact .rfl
  | write | record | solve | flatten => exact thins_set _ _
  | plant | sprout => exact absurd rfl shrinking
  | fellRoot => exact thins_erase _
  | fell => exact (thins_erase _).trans (thins_set _ _)
  | wipe => exact thins_eraseAll _

namespace Moves

variable {may : Set Deed} {desk desk' : Desk}

theorem grows (moves : Moves may desk desk') (growing : .fell ∉ may) (i : Nat) :
    Grows desk.nodes desk'.nodes i := by
  induction moves with
  | refl => exact .rfl
  | tail _ last ih =>
    obtain ⟨deed, allowed, move⟩ := last
    exact ih.trans (move.grows (fun same => growing (same ▸ allowed)) i)

theorem thins (moves : Moves may desk desk') (shrinking : .sprout ∉ may) (i : Nat) :
    Thins desk.nodes desk'.nodes i := by
  induction moves with
  | refl => exact .rfl
  | tail _ last ih =>
    obtain ⟨deed, allowed, move⟩ := last
    exact ih.trans (move.thins (fun same => shrinking (same ▸ allowed)) i)

/-- Between a growth and a shrinkage the generations count the emptyings. -/
theorem generation (moves : Moves may desk desk') (oneWay : .fell ∉ may ∨ .sprout ∉ may)
    (i : Nat) : desk'.nodes.generationAt i =
      desk.nodes.generationAt i + if desk.nodes.emptiedAt desk'.nodes i then 1 else 0 := by
  obtain growing | shrinking := oneWay
  · have grows := moves.grows growing i
    rw [grows.emptiedAt, grows.generation]
    simp
  · exact (moves.thins shrinking i).generation

end Moves

end BranchCutPrice
