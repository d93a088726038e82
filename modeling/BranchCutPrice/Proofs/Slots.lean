import BranchCutPrice.Slot.Table
import Mathlib.Algebra.BigOperators.Group.List.Basic
import Mathlib.Algebra.GroupWithZero.Nat
import Mathlib.Data.List.Nodup

/-!
What the operations of a slot table do to its contents. A table is sound if its free
list names each empty slot once and its count is right. As long as every slot number
fits its 32 bits, a new handle is one that named nothing before.
-/

namespace BranchCutPrice.SlotTable

variable {kind : Kind} {α : Type}

/-- Every slot number fits the 32 bits that a handle has for it. -/
def Fits (table : SlotTable kind α) : Prop :=
  table.slots.size ≤ 0x100000000

/-- The number of another slot fits its 32 bits as well. -/
def Roomy (table : SlotTable kind α) : Prop :=
  table.slots.size < 0x100000000

instance (table : SlotTable kind α) : Decidable table.Roomy :=
  inferInstanceAs (Decidable (table.slots.size < 0x100000000))

theorem Roomy.fits {table : SlotTable kind α} (roomy : table.Roomy) : table.Fits :=
  Nat.le_of_lt roomy

theorem Roomy.fits_insert {table : SlotTable kind α} (roomy : table.Roomy) {a : α} :
    (table.insert a).2.Fits := by
  unfold Roomy at roomy
  unfold Fits insert
  split
  · rw [Array.size_setIfInBounds]
    omega
  · rw [Array.size_push]
    omega

section Total

variable {M : Type} [AddCommMonoid M] (f : α → M)

/-- The share of a slot in a total. -/
def share (slot : Slot α) : M :=
  (slot.content.map f).getD 0

/-- The sum of a quantity over the stored objects. -/
def total (table : SlotTable kind α) : M :=
  (table.slots.toList.map (share f)).sum

private theorem sum_set (items : List M) (i : Nat) (old new : M) (found : items[i]? = some old) :
    (items.set i new).sum + old = items.sum + new := by
  induction items generalizing i with
  | nil => simp at found
  | cons first rest ih =>
    cases i with
    | zero =>
      simp only [List.getElem?_cons_zero, Option.some.injEq] at found
      subst first
      simp only [List.set_cons_zero, List.sum_cons]
      rw [add_right_comm, add_comm new, add_right_comm]
    | succ i =>
      simp only [List.getElem?_cons_succ] at found
      simp only [List.set_cons_succ, List.sum_cons]
      rw [add_assoc, ih i found, add_assoc]

private theorem total_replace (table : SlotTable kind α) (i : Nat) (old new : Slot α)
    (found : table.slots[i]? = some old) (free : List UInt32) (live : Nat) :
    total f (⟨table.slots.setIfInBounds i new, free, live⟩ : SlotTable kind α) + share f old =
      total f table + share f new := by
  unfold total
  rw [Array.toList_setIfInBounds, List.map_set]
  apply sum_set
  rw [List.getElem?_map, Array.getElem?_toList, found]
  rfl

end Total

/-! ### Looking up -/

theorem get?_eq_some {table : SlotTable kind α} {handle : Handle kind} {a : α} :
    table.get? handle = some a ↔ table.slots[handle.index]? = some ⟨handle.generation, some a⟩ := by
  unfold get?
  cases found : table.slots[handle.index]? with
  | none => simp
  | some slot =>
    obtain ⟨generation, content⟩ := slot
    by_cases same : generation = handle.generation <;> simp [same]

theorem contains_iff {table : SlotTable kind α} {handle : Handle kind} :
    table.contains handle = true ↔ ∃ a, table.get? handle = some a := by
  unfold contains
  exact Option.isSome_iff_exists

private theorem handle_eq {left right : Handle kind} (slots : left.index = right.index)
    (generations : left.generation = right.generation) : left = right := by
  obtain ⟨slot, generation⟩ := left
  obtain ⟨slot', generation'⟩ := right
  have same : slot = slot' := UInt32.toNat_inj.1 slots
  subst same
  cases generations
  rfl

@[simp]
theorem get?_empty (handle : Handle kind) : (empty : SlotTable kind α).get? handle = none := by
  simp [get?, empty]

private theorem get?_of_slot {table : SlotTable kind α} {handle : Handle kind} {slot : Slot α}
    (found : table.slots[handle.index]? = some slot) :
    table.get? handle = if slot.generation = handle.generation then slot.content else none := by
  unfold get?
  rw [found]

private theorem get?_replace (table : SlotTable kind α) (i : Nat) (new : Slot α)
    (free : List UInt32) (live : Nat) (bounded : i < table.slots.size) (other : Handle kind) :
    (⟨table.slots.setIfInBounds i new, free, live⟩ : SlotTable kind α).get? other =
      if other.index = i then if new.generation = other.generation then new.content else none
      else table.get? other := by
  by_cases same : other.index = i
  · rw [if_pos same]
    apply get?_of_slot
    rw [same, Array.getElem?_setIfInBounds_self_of_lt bounded]
  · rw [if_neg same]
    unfold get?
    rw [Array.getElem?_setIfInBounds_ne (Ne.symm same)]

private theorem bounded_of_found {table : SlotTable kind α} {handle : Handle kind} {a : α}
    (found : table.get? handle = some a) : handle.index < table.slots.size :=
  (Array.getElem?_eq_some_iff.1 (get?_eq_some.1 found)).1

/-- Of the handles to a slot only one can name what is stored there. -/
private theorem get?_beside {table : SlotTable kind α} {handle other : Handle kind} {a : α}
    (found : table.get? handle = some a) (index : other.index = handle.index)
    (different : other ≠ handle) : handle.generation ≠ other.generation ∧ table.get? other = none := by
  have generations : handle.generation ≠ other.generation := fun same =>
    different (handle_eq index same.symm)
  refine ⟨generations, ?_⟩
  rw [get?_of_slot (index ▸ get?_eq_some.1 found), if_neg generations]

theorem get?_set {table : SlotTable kind α} {handle : Handle kind} {old : α}
    (found : table.get? handle = some old) (a : α) (other : Handle kind) :
    (table.set handle a).get? other = if other = handle then some a else table.get? other := by
  unfold set
  rw [if_pos (contains_iff.2 ⟨old, found⟩), get?_replace _ _ _ _ _ (bounded_of_found found)]
  by_cases same : other = handle
  · subst same
    rw [if_pos rfl, if_pos rfl, if_pos rfl]
  · rw [if_neg same]
    by_cases index : other.index = handle.index
    · obtain ⟨generations, absent⟩ := get?_beside found index same
      rw [if_pos index, if_neg generations, absent]
    · rw [if_neg index]

/-- Of two replacements the second one counts. -/
theorem set_set {table : SlotTable kind α} {handle : Handle kind} {old : α}
    (found : table.get? handle = some old) (first second : α) :
    (table.set handle first).set handle second = table.set handle second := by
  have live : table.contains handle = true := contains_iff.2 ⟨old, found⟩
  have still : (table.set handle first).contains handle = true := by
    rw [contains_iff, get?_set found, if_pos rfl]
    exact ⟨first, rfl⟩
  unfold set at still ⊢
  rw [if_pos live] at still ⊢
  rw [if_pos still, if_pos live, Array.setIfInBounds_setIfInBounds]

theorem set_stale {table : SlotTable kind α} {handle : Handle kind}
    (absent : table.get? handle = none) (a : α) : table.set handle a = table := by
  unfold set contains
  rw [absent]
  rfl

theorem get?_erase (table : SlotTable kind α) (handle other : Handle kind) :
    (table.erase handle).get? other = if other = handle then none else table.get? other := by
  unfold erase
  cases found : table.get? handle with
  | none =>
    have stale : ¬table.contains handle = true := by
      unfold contains
      simp [found]
    rw [if_neg stale]
    by_cases same : other = handle
    · rw [if_pos same, same, found]
    · rw [if_neg same]
  | some old =>
    rw [if_pos (contains_iff.2 ⟨old, found⟩), get?_replace _ _ _ _ _ (bounded_of_found found)]
    by_cases same : other = handle
    · rw [if_pos same, if_pos (congrArg Handle.index same)]
      split <;> rfl
    · rw [if_neg same]
      by_cases index : other.index = handle.index
      · rw [if_pos index, (get?_beside found index same).2]
        split <;> rfl
      · rw [if_neg index]

/-! ### Totals -/

section Totals

variable {M : Type} [AddCommMonoid M] (f : α → M)

@[simp]
theorem total_empty : total f (empty : SlotTable kind α) = 0 :=
  rfl

theorem total_set {table : SlotTable kind α} {handle : Handle kind} {old : α} (new : α)
    (found : table.get? handle = some old) :
    total f (table.set handle new) + f old = total f table + f new := by
  unfold set
  rw [if_pos (contains_iff.2 ⟨old, found⟩)]
  exact total_replace f table _ _ _ (get?_eq_some.1 found) _ _

theorem total_erase {table : SlotTable kind α} {handle : Handle kind} {old : α}
    (found : table.get? handle = some old) :
    total f (table.erase handle) + f old = total f table := by
  unfold erase
  rw [if_pos (contains_iff.2 ⟨old, found⟩)]
  have replaced := total_replace f table _ _ ⟨handle.generation + 1, none⟩ (get?_eq_some.1 found)
    (handle.slot :: table.free) (table.live - 1)
  exact replaced.trans (add_zero _)

end Totals

@[simp]
theorem size_set (table : SlotTable kind α) (handle : Handle kind) (a : α) :
    (table.set handle a).slots.size = table.slots.size := by
  unfold set
  split <;> simp

@[simp]
theorem size_erase (table : SlotTable kind α) (handle : Handle kind) :
    (table.erase handle).slots.size = table.slots.size := by
  unfold erase
  split <;> simp

theorem size_le_insert (table : SlotTable kind α) (a : α) :
    table.slots.size ≤ (table.insert a).2.slots.size := by
  unfold insert
  split <;> simp

/-- The number of slots once some more objects are stored. The empty slots are used first. -/
def sizeAfter (table : SlotTable kind α) (more : Nat) : Nat :=
  table.slots.size + (more - table.free.length)

theorem sizeAfter_zero (table : SlotTable kind α) : table.sizeAfter 0 = table.slots.size := by
  unfold sizeAfter
  rw [Nat.zero_sub, Nat.add_zero]

theorem sizeAfter_mono (table : SlotTable kind α) {more most : Nat} (le : more ≤ most) :
    table.sizeAfter more ≤ table.sizeAfter most :=
  Nat.add_le_add_left (Nat.sub_le_sub_right le _) _

theorem sizeAfter_set (table : SlotTable kind α) (handle : Handle kind) (a : α) (more : Nat) :
    (table.set handle a).sizeAfter more = table.sizeAfter more := by
  unfold sizeAfter
  rw [size_set]
  unfold set
  split <;> rfl

theorem sizeAfter_insert (table : SlotTable kind α) (a : α) (more : Nat) :
    (table.insert a).2.sizeAfter more = table.sizeAfter (more + 1) := by
  unfold sizeAfter insert
  cases table.free with
  | nil =>
    simp only [Array.size_push, List.length_nil]
    omega
  | cons slot free =>
    simp only [Array.size_setIfInBounds, List.length_cons]
    omega

/-- There is a number for one more slot if it takes one. -/
theorem fits_insert {table : SlotTable kind α} (room : table.sizeAfter 1 ≤ 0x100000000) (a : α) :
    (table.insert a).2.Fits := by
  unfold Fits
  rw [← sizeAfter_zero, sizeAfter_insert]
  exact room

/-! ### Sound tables -/

/-- The free list names each empty slot once, and the count of occupied ones is right. -/
structure Sound (table : SlotTable kind α) : Prop where
  free_iff : ∀ slot : UInt32, slot ∈ table.free ↔
    ∃ generation, table.slots[slot.toNat]? = some ⟨generation, none⟩
  free_nodup : table.free.Nodup
  live_eq : table.live = table.total fun _ => 1

theorem sound_empty : (empty : SlotTable kind α).Sound where
  free_iff slot := by simp [empty]
  free_nodup := List.nodup_nil
  live_eq := rfl

variable {table : SlotTable kind α}

theorem Sound.set (sound : table.Sound) (handle : Handle kind) (a : α) :
    (table.set handle a).Sound := by
  cases found : table.get? handle with
  | none =>
    rw [set_stale found]
    exact sound
  | some old =>
    have bounded := bounded_of_found found
    have total := total_set (fun _ => 1) a found
    unfold SlotTable.set at total ⊢
    rw [if_pos (contains_iff.2 ⟨old, found⟩)] at total ⊢
    refine ⟨fun slot => ?_, sound.free_nodup, ?_⟩
    · change slot ∈ table.free ↔ _
      rw [sound.free_iff slot]
      by_cases same : slot.toNat = handle.index
      · rw [same, Array.getElem?_setIfInBounds_self_of_lt bounded, get?_eq_some.1 found]
        simp
      · rw [Array.getElem?_setIfInBounds_ne (Ne.symm same)]
    · exact sound.live_eq.trans (Nat.add_right_cancel total).symm

theorem Sound.erase (sound : table.Sound) (handle : Handle kind) :
    (table.erase handle).Sound := by
  cases found : table.get? handle with
  | none =>
    have stale : ¬table.contains handle = true := by
      unfold contains
      simp [found]
    unfold SlotTable.erase
    rw [if_neg stale]
    exact sound
  | some old =>
    have bounded := bounded_of_found found
    have total := total_erase (fun _ => 1) found
    unfold SlotTable.erase at total ⊢
    rw [if_pos (contains_iff.2 ⟨old, found⟩)] at total ⊢
    refine ⟨fun slot => ?_, ?_, ?_⟩
    · change slot ∈ handle.slot :: table.free ↔ _
      rw [List.mem_cons, sound.free_iff slot]
      by_cases same : slot = handle.slot
      · subst same
        change _ ↔ ∃ generation, (table.slots.setIfInBounds handle.index _)[handle.index]? = _
        rw [Array.getElem?_setIfInBounds_self_of_lt bounded]
        simp
      · have index : slot.toNat ≠ handle.index := fun equal => same (UInt32.toNat_inj.1 equal)
        rw [Array.getElem?_setIfInBounds_ne (Ne.symm index)]
        simp [same]
    · apply List.nodup_cons.2
      refine ⟨fun member => ?_, sound.free_nodup⟩
      obtain ⟨generation, slot⟩ := (sound.free_iff handle.slot).1 member
      have occupied := get?_eq_some.1 found
      unfold Handle.index at occupied
      rw [slot] at occupied
      cases occupied
    · have live := sound.live_eq
      change table.live - 1 = _
      omega

/-- A new object goes to the first free slot, or to a new slot if there is none. -/
theorem insert_cases (sound : table.Sound) (a : α) :
    (∃ slot free generation, table.free = slot :: free ∧
      table.slots[slot.toNat]? = some ⟨generation, none⟩ ∧
      table.insert a = (⟨slot, generation⟩,
        ⟨table.slots.setIfInBounds slot.toNat ⟨generation, some a⟩, free, table.live + 1⟩)) ∨
    (table.free = [] ∧ table.insert a = (⟨table.slots.size.toUInt32, 0⟩,
      ⟨table.slots.push ⟨0, some a⟩, [], table.live + 1⟩)) := by
  unfold insert
  cases free : table.free with
  | nil => exact .inr ⟨rfl, rfl⟩
  | cons slot rest =>
    obtain ⟨generation, found⟩ := (sound.free_iff slot).1 (free ▸ List.mem_cons_self)
    refine .inl ⟨slot, rest, generation, rfl, found, ?_⟩
    simp [found]

theorem total_insert {M : Type} [AddCommMonoid M] (f : α → M) (sound : table.Sound) (a : α) :
    total f (table.insert a).2 = total f table + f a := by
  obtain ⟨slot, free, generation, _, found, inserted⟩ | ⟨_, inserted⟩ := insert_cases sound a
  · rw [inserted]
    have replaced := total_replace f table _ _ ⟨generation, some a⟩ found free (table.live + 1)
    exact (add_zero _).symm.trans replaced
  · rw [inserted]
    simp [total, share]

/-- The slot number of a pushed slot is not cut off. -/
private theorem index_pushed (fits : table.slots.size < 0x100000000) :
    (⟨table.slots.size.toUInt32, 0⟩ : Handle kind).index = table.slots.size := by
  change table.slots.size.toUInt32.toNat = table.slots.size
  rw [Nat.toUInt32_eq, UInt32.toNat_ofNat']
  exact Nat.mod_eq_of_lt fits

theorem get?_insert (sound : table.Sound) {a : α} (fits : (table.insert a).2.Fits)
    (other : Handle kind) :
    (table.insert a).2.get? other =
      if other = (table.insert a).1 then some a else table.get? other := by
  unfold Fits at fits
  obtain ⟨slot, free, generation, _, found, inserted⟩ | ⟨_, inserted⟩ := insert_cases sound a
  · rw [inserted, get?_replace _ _ _ _ _ (Array.getElem?_eq_some_iff.1 found).1]
    by_cases index : other.index = slot.toNat
    · rw [if_pos index, get?_of_slot (index ▸ found)]
      by_cases same : other = ⟨slot, generation⟩
      · simp [same]
      · have generations : generation ≠ other.generation := fun equal =>
          same (handle_eq index equal.symm)
        simp [same, generations]
    · have same : other ≠ ⟨slot, generation⟩ := fun equal => index (congrArg Handle.index equal)
      rw [if_neg index, if_neg same]
  · rw [inserted] at fits ⊢
    rw [Array.size_push] at fits
    have pushed : (⟨table.slots.size.toUInt32, 0⟩ : Handle kind).index = table.slots.size :=
      index_pushed fits
    unfold get?
    rw [Array.getElem?_push]
    by_cases index : other.index = table.slots.size
    · by_cases same : other = ⟨table.slots.size.toUInt32, 0⟩
      · simp [same, pushed]
      · have generations : (0 : UInt32) ≠ other.generation := fun equal =>
          same (handle_eq (index.trans pushed.symm) equal.symm)
        simp [index, same, generations]
    · have same : other ≠ ⟨table.slots.size.toUInt32, 0⟩ := fun equal =>
        index ((congrArg Handle.index equal).trans pushed)
      rw [if_neg index, if_neg same]

/-- A new handle named nothing before. -/
theorem get?_new (sound : table.Sound) {a : α} (fits : (table.insert a).2.Fits) :
    table.get? (table.insert a).1 = none := by
  unfold Fits at fits
  obtain ⟨slot, free, generation, _, found, inserted⟩ | ⟨_, inserted⟩ := insert_cases sound a
  · rw [inserted]
    exact (get?_of_slot found).trans (ite_self _)
  · rw [inserted] at fits ⊢
    rw [Array.size_push] at fits
    unfold get?
    rw [index_pushed fits]
    simp

/-- A slot that was emptied is in its next generation when it is used again. -/
theorem insert_erase_ne (sound : table.Sound) {handle : Handle kind} {old : α}
    (found : table.get? handle = some old) (a : α) :
    ((table.erase handle).insert a).1 ≠ handle := by
  have emptied : table.erase handle =
      ⟨table.slots.setIfInBounds handle.index ⟨handle.generation + 1, none⟩,
        handle.slot :: table.free, table.live - 1⟩ := by
    unfold erase
    rw [if_pos (contains_iff.2 ⟨old, found⟩)]
  obtain ⟨slot, free, generation, _, there, inserted⟩ | ⟨listed, _⟩ :=
    insert_cases (sound.erase handle) a
  · rw [inserted]
    intro same
    have index : slot.toNat = handle.index := congrArg Handle.index same
    have generations : generation = handle.generation := congrArg Handle.generation same
    rw [index, emptied, Array.getElem?_setIfInBounds_self_of_lt (bounded_of_found found),
      Option.some.injEq, Slot.mk.injEq, generations] at there
    exact absurd there.1 (by simp)
  · rw [emptied] at listed
    cases listed

theorem Sound.insert (sound : table.Sound) (a : α) : (table.insert a).2.Sound := by
  have total := total_insert (fun _ => 1) sound a
  obtain ⟨slot, free, generation, listed, found, inserted⟩ | ⟨listed, inserted⟩ :=
    insert_cases sound a
  · have bounded := (Array.getElem?_eq_some_iff.1 found).1
    have distinct := sound.free_nodup
    rw [listed, List.nodup_cons] at distinct
    rw [inserted] at total ⊢
    refine ⟨fun other => ?_, distinct.2, (congrArg (· + 1) sound.live_eq).trans total.symm⟩
    by_cases same : other = slot
    · subst same
      change other ∈ free ↔ _
      rw [Array.getElem?_setIfInBounds_self_of_lt bounded]
      simp [distinct.1]
    · have index : other.toNat ≠ slot.toNat := fun equal => same (UInt32.toNat_inj.1 equal)
      change other ∈ free ↔ _
      rw [Array.getElem?_setIfInBounds_ne (Ne.symm index), ← sound.free_iff other, listed,
        List.mem_cons, or_iff_right same]
  · rw [inserted] at total ⊢
    refine ⟨fun other => ?_, List.nodup_nil, (congrArg (· + 1) sound.live_eq).trans total.symm⟩
    have absent := sound.free_iff other
    rw [listed] at absent
    change other ∈ [] ↔ ∃ generation, (table.slots.push _)[other.toNat]? = _
    rw [Array.getElem?_push]
    by_cases index : other.toNat = table.slots.size
    · simp [index]
    · rw [if_neg index]
      exact absent

/-! ### Listing -/

private theorem entries_total {M : Type} [AddCommMonoid M] (f : α → M) (slots : List (Slot α))
    (start : Nat) : (slots.map (share f)).sum = (((slots.zipIdx start).filterMap
      fun (slot, i) => slot.content.map fun a =>
        ((⟨i.toUInt32, slot.generation⟩ : Handle kind), a)).map fun entry => f entry.2).sum := by
  induction slots generalizing start with
  | nil => rfl
  | cons slot rest ih =>
    obtain ⟨generation, content⟩ := slot
    rw [List.map_cons, List.sum_cons, List.zipIdx_cons, ih (start + 1)]
    cases content with
    | none => exact zero_add _
    | some a => rfl

theorem total_eq_entries {M : Type} [AddCommMonoid M] (f : α → M) (table : SlotTable kind α) :
    total f table = (table.entries.map fun entry => f entry.2).sum :=
  entries_total f table.slots.toList 0

theorem mem_entries (fits : table.Fits) {handle : Handle kind} {a : α} :
    (handle, a) ∈ table.entries ↔ table.get? handle = some a := by
  unfold Fits at fits
  rw [get?_eq_some]
  unfold entries
  simp only [List.mem_filterMap, List.mk_mem_zipIdx_iff_getElem?, Prod.exists,
    Array.getElem?_toList, Option.map_eq_some_iff, Prod.mk.injEq]
  constructor
  · rintro ⟨⟨generation, content⟩, i, found, b, rfl, rfl, rfl⟩
    have bound := (Array.getElem?_eq_some_iff.1 found).1
    have index : (⟨i.toUInt32, generation⟩ : Handle kind).index = i := by
      change i.toUInt32.toNat = i
      rw [Nat.toUInt32_eq, UInt32.toNat_ofNat']
      exact Nat.mod_eq_of_lt (by omega)
    rw [index]
    exact found
  · intro found
    refine ⟨⟨handle.generation, some a⟩, handle.index, found, a, rfl, ?_, rfl⟩
    change (⟨handle.slot.toNat.toUInt32, handle.generation⟩ : Handle kind) = handle
    rw [Nat.toUInt32_eq, UInt32.ofNat_toNat]

theorem total_eq_zero {M : Type} [AddCommMonoid M] {f : α → M} (fits : table.Fits)
    (zero : ∀ handle a, table.get? handle = some a → f a = 0) : total f table = 0 := by
  rw [total_eq_entries]
  apply List.sum_eq_zero
  intro share member
  obtain ⟨⟨handle, a⟩, stored, rfl⟩ := List.mem_map.1 member
  exact zero handle a ((mem_entries fits).1 stored)

theorem mem_handles (fits : table.Fits) {handle : Handle kind} :
    handle ∈ table.handles ↔ ∃ a, table.get? handle = some a := by
  unfold handles
  rw [List.mem_map]
  constructor
  · rintro ⟨⟨handle, a⟩, member, rfl⟩
    exact ⟨a, (mem_entries fits).1 member⟩
  · rintro ⟨a, found⟩
    exact ⟨(handle, a), (mem_entries fits).2 found, rfl⟩

theorem handles_nodup (fits : table.Fits) : table.handles.Nodup := by
  unfold Fits at fits
  unfold handles entries
  have increasing : table.slots.toList.zipIdx.Pairwise fun left right => left.2 < right.2 := by
    refine List.pairwise_map.1 ?_
    rw [List.zipIdx_map_snd]
    exact List.pairwise_lt_range'
  refine List.pairwise_map.2 (List.pairwise_filterMap.2 (increasing.imp_of_mem ?_))
  rintro ⟨left, i⟩ ⟨right, j⟩ memberLeft memberRight less entry foundLeft entry' foundRight same
  obtain ⟨a, _, rfl⟩ := Option.map_eq_some_iff.1 foundLeft
  obtain ⟨b, _, rfl⟩ := Option.map_eq_some_iff.1 foundRight
  have slots : i.toUInt32.toNat = j.toUInt32.toNat := congrArg Handle.index same
  have boundLeft := List.snd_lt_of_mem_zipIdx memberLeft
  have boundRight := List.snd_lt_of_mem_zipIdx memberRight
  rw [Array.length_toList] at boundLeft boundRight
  rw [Nat.toUInt32_eq, UInt32.toNat_ofNat', Nat.toUInt32_eq, UInt32.toNat_ofNat',
    Nat.mod_eq_of_lt (by omega), Nat.mod_eq_of_lt (by omega)] at slots
  change i < j at less
  omega

theorem length_handles (sound : table.Sound) : table.handles.length = table.live := by
  rw [sound.live_eq, total_eq_entries]
  unfold handles
  simp

/-! ### Counting -/

private theorem sum_ite (items : List α) (holds : α → Bool) :
    (items.map fun a => if holds a then 1 else 0).sum = items.countP holds := by
  induction items with
  | nil => rfl
  | cons a rest ih =>
    rw [List.map_cons, List.sum_cons, ih, List.countP_cons]
    omega

/-- The number of stored objects of some sort. -/
theorem total_eq_countP (holds : α → Bool) (table : SlotTable kind α) :
    total (fun a => if holds a then 1 else 0) table =
      table.entries.countP fun entry => holds entry.2 := by
  rw [total_eq_entries]
  exact sum_ite table.entries fun entry => holds entry.2

theorem Sound.live_eq_countP (sound : table.Sound) :
    table.live = table.slots.toList.countP (·.content.isSome) := by
  rw [← length_handles sound]
  unfold handles entries
  rw [List.length_map, List.length_filterMap_eq_countP]
  have slots : table.slots.toList = table.slots.toList.zipIdx.map Prod.fst := by
    rw [List.zipIdx_map_fst]
  conv => rhs; rw [slots, List.countP_map]
  congr 1
  funext entry
  exact Option.isSome_map

/-- The free list names each empty slot once and no other one. -/
theorem Sound.count_free (sound : table.Sound) (fits : table.Fits) (i : Nat) :
    (table.free.map UInt32.toNat).count i =
      if table.slots[i]?.any (·.content.isNone) then 1 else 0 := by
  have distinct : (table.free.map UInt32.toNat).Nodup :=
    sound.free_nodup.map fun _ _ same => UInt32.toNat_inj.1 same
  have listed : i ∈ table.free.map UInt32.toNat ↔
      table.slots[i]?.any (·.content.isNone) = true := by
    rw [List.mem_map]
    constructor
    · intro member
      obtain ⟨slot, free, rfl⟩ := member
      obtain ⟨generation, found⟩ := (sound.free_iff slot).1 free
      rw [found]
      rfl
    · intro empty
      obtain ⟨⟨generation, content⟩, found, empty⟩ := (Option.any_eq_true _ _).1 empty
      have bound := (Array.getElem?_eq_some_iff.1 found).1
      unfold Fits at fits
      have index : i.toUInt32.toNat = i := by
        rw [Nat.toUInt32_eq, UInt32.toNat_ofNat']
        exact Nat.mod_eq_of_lt (by omega)
      refine ⟨i.toUInt32, (sound.free_iff _).2 ⟨generation, ?_⟩, index⟩
      have bare : content = none := Option.isNone_iff_eq_none.1 empty
      rw [index, found, bare]
  by_cases empty : table.slots[i]?.any (·.content.isNone) = true
  · rw [if_pos empty]
    exact List.count_eq_one_of_mem distinct (listed.2 empty)
  · rw [if_neg empty]
    exact List.count_eq_zero_of_not_mem (mt listed.1 empty)

/-! ### Emptying several slots -/

/-- Empties the slots of some handles in order. -/
def eraseAll (table : SlotTable kind α) (handles : List (Handle kind)) : SlotTable kind α :=
  handles.foldl erase table

@[simp]
theorem size_eraseAll (table : SlotTable kind α) (handles : List (Handle kind)) :
    (table.eraseAll handles).slots.size = table.slots.size := by
  induction handles generalizing table with
  | nil => rfl
  | cons handle rest ih => exact (ih (table.erase handle)).trans (size_erase table handle)

theorem Sound.eraseAll (sound : table.Sound) (handles : List (Handle kind)) :
    (table.eraseAll handles).Sound := by
  induction handles generalizing table with
  | nil => exact sound
  | cons handle rest ih => exact ih (sound.erase handle)

theorem get?_eraseAll (table : SlotTable kind α) (handles : List (Handle kind))
    (other : Handle kind) :
    (table.eraseAll handles).get? other = if other ∈ handles then none else table.get? other := by
  induction handles generalizing table with
  | nil => simp [eraseAll]
  | cons handle rest ih =>
    change ((table.erase handle).eraseAll rest).get? other = _
    rw [ih, get?_erase]
    by_cases same : other = handle <;> by_cases member : other ∈ rest <;> simp [same, member]

theorem live_set (table : SlotTable kind α) (handle : Handle kind) (a : α) :
    (table.set handle a).live = table.live := by
  unfold set
  split <;> rfl

theorem live_insert (table : SlotTable kind α) (a : α) :
    (table.insert a).2.live = table.live + 1 := by
  unfold insert
  split <;> rfl

theorem live_pos (sound : table.Sound) {handle : Handle kind} {a : α}
    (found : table.get? handle = some a) : 0 < table.live := by
  have split := total_erase (fun _ => 1) found
  rw [sound.live_eq]
  omega

theorem live_erase {handle : Handle kind} {a : α} (found : table.get? handle = some a) :
    (table.erase handle).live = table.live - 1 := by
  unfold erase
  rw [if_pos (contains_iff.2 ⟨a, found⟩)]

/-- No object is left once all are taken out. -/
theorem get?_eraseAll_handles (fits : table.Fits) (handle : Handle kind) :
    (table.eraseAll table.handles).get? handle = none := by
  rw [get?_eraseAll]
  split
  · rfl
  · rename_i absent
    cases found : table.get? handle with
    | none => rfl
    | some a => exact absurd ((mem_handles fits).2 ⟨a, found⟩) absent

theorem live_eraseAll (sound : table.Sound) (fits : table.Fits) :
    (table.eraseAll table.handles).live = 0 := by
  have fits' : (table.eraseAll table.handles).Fits := by
    unfold Fits
    rw [size_eraseAll]
    exact fits
  rw [← length_handles (sound.eraseAll _), List.length_eq_zero_iff, List.eq_nil_iff_forall_not_mem]
  intro handle member
  obtain ⟨a, found⟩ := (mem_handles fits').1 member
  rw [get?_eraseAll_handles fits] at found
  cases found

end BranchCutPrice.SlotTable
