import BranchCutPrice.Relaxation
import Mathlib.Data.List.Nodup

/-! The positions of the loaded rows mirror the list of loaded rows. -/

namespace BranchCutPrice.Relaxation

/-- A row has a position exactly if it stands there. -/
def Mirrors (positions : Std.TreeMap RowId Nat) (rows : List RowId) : Prop :=
  ∀ (row : RowId) (i : Nat), positions[row]? = some i ↔ rows[i]? = some row

private theorem insert_getElem? (positions : Std.TreeMap RowId Nat) (row other : RowId)
    (position : Nat) : (positions.insert row position)[other]? =
      if row = other then some position else positions[other]? := by
  simp only [Std.TreeMap.getElem?_insert, Std.LawfulEqOrd.compare_eq_iff_eq]

private theorem erase_getElem? (positions : Std.TreeMap RowId Nat) (row other : RowId) :
    (positions.erase row)[other]? = if row = other then none else positions[other]? := by
  simp only [Std.TreeMap.getElem?_erase, Std.LawfulEqOrd.compare_eq_iff_eq]

/-- Renumbering gives the rows of the list their positions and leaves the others. -/
theorem renumber_getElem? (positions : Std.TreeMap RowId Nat) (start : Nat) (rows : List RowId)
    (distinct : rows.Nodup) (row : RowId) :
    (∀ i, rows[i]? = some row → (renumber positions start rows)[row]? = some (start + i)) ∧
      (row ∉ rows → (renumber positions start rows)[row]? = positions[row]?) := by
  induction rows generalizing positions start with
  | nil => simp [renumber]
  | cons first rest ih =>
    obtain ⟨fresh, distinctRest⟩ := List.nodup_cons.1 distinct
    obtain ⟨inside, outside⟩ := ih (positions.insert first start) (start + 1) distinctRest
    refine ⟨fun i found => ?_, fun absent => ?_⟩
    · cases i with
      | zero =>
        simp only [List.getElem?_cons_zero, Option.some.injEq] at found
        subst first
        exact (outside fresh).trans Std.TreeMap.getElem?_insert_self
      | succ i =>
        rw [List.getElem?_cons_succ] at found
        have position := inside i found
        rwa [Nat.add_right_comm] at position
    · rw [List.mem_cons, not_or] at absent
      refine (outside absent.2).trans ?_
      rw [insert_getElem?, if_neg (Ne.symm absent.1)]

namespace Mirrors

variable {positions : Std.TreeMap RowId Nat} {rows : List RowId} {row : RowId}

theorem empty : Mirrors ∅ [] := by
  intro row i
  simp

theorem nodup (mirrors : Mirrors positions rows) : rows.Nodup := by
  rw [List.nodup_iff_getElem?_ne_getElem?]
  intro i j less bound same
  obtain ⟨row, found⟩ : ∃ row, rows[j]? = some row := ⟨_, List.getElem?_eq_getElem bound⟩
  have first := (mirrors row i).2 (same.trans found)
  have second := (mirrors row j).2 found
  rw [first, Option.some.injEq] at second
  omega

theorem contains_iff (mirrors : Mirrors positions rows) :
    positions.contains row = true ↔ row ∈ rows := by
  rw [Std.TreeMap.contains_iff_mem, Std.TreeMap.mem_iff_isSome_getElem?, Option.isSome_iff_exists,
    List.mem_iff_getElem?]
  exact exists_congr fun i => mirrors row i

theorem load (mirrors : Mirrors positions rows) (fresh : row ∉ rows) :
    Mirrors (positions.insert row rows.length) (rows ++ [row]) := by
  intro other i
  rw [insert_getElem?]
  by_cases same : row = other
  · subst same
    rw [if_pos rfl, Option.some.injEq]
    constructor
    · rintro rfl
      simp
    · intro found
      by_contra different
      apply fresh
      rw [List.getElem?_append] at found
      split at found
      · exact List.mem_of_getElem? found
      · rw [List.getElem?_singleton] at found
        split at found
        · omega
        · cases found
  · rw [if_neg same, mirrors other i, List.getElem?_append]
    by_cases inside : i < rows.length
    · rw [if_pos inside]
    · rw [if_neg inside, List.getElem?_eq_none (Nat.le_of_not_lt inside), List.getElem?_singleton]
      split <;> simp [same]

theorem unloadLast (mirrors : Mirrors positions (rows ++ [row])) :
    Mirrors (positions.erase row) rows := by
  have fresh : row ∉ rows := fun member =>
    (List.nodup_append.1 mirrors.nodup).2.2 row member row (by simp) rfl
  intro other i
  rw [erase_getElem?]
  by_cases same : row = other
  · subst same
    rw [if_pos rfl]
    constructor
    · intro impossible
      cases impossible
    · intro found
      exact absurd (List.mem_of_getElem? found) fresh
  · rw [if_neg same, mirrors other i, List.getElem?_append]
    by_cases inside : i < rows.length
    · rw [if_pos inside]
    · rw [if_neg inside, List.getElem?_eq_none (Nat.le_of_not_lt inside), List.getElem?_singleton]
      split <;> simp [same]

theorem drop (mirrors : Mirrors positions rows) {position : Nat}
    (found : positions[row]? = some position) :
    Mirrors (renumber (positions.erase row) position ((rows.eraseIdx position).drop position))
      (rows.eraseIdx position) := by
  have here := (mirrors row position).1 found
  have distinct := mirrors.nodup
  have remaining : (rows.eraseIdx position).Nodup := distinct.eraseIdx position
  have shifted := renumber_getElem? (positions.erase row) position
    ((rows.eraseIdx position).drop position) (remaining.sublist (List.drop_sublist _ _))
  intro other i
  by_cases later : other ∈ (rows.eraseIdx position).drop position
  · -- behind the row taken out
    obtain ⟨j, place⟩ := List.mem_iff_getElem?.1 later
    rw [(shifted other).1 j place, Option.some.injEq]
    rw [List.getElem?_drop] at place
    constructor
    · rintro rfl
      exact place
    · intro place'
      exact (List.getElem?_inj (List.getElem?_eq_some_iff.1 place).1 remaining).1
        (place.trans place'.symm)
  · -- before it, or not loaded
    rw [(shifted other).2 later, erase_getElem?]
    have before (place : (rows.eraseIdx position)[i]? = some other) : i < position := by
      by_contra behind
      apply later
      apply List.mem_iff_getElem?.2
      refine ⟨i - position, ?_⟩
      rw [List.getElem?_drop, Nat.add_sub_cancel' (Nat.le_of_not_lt behind)]
      exact place
    by_cases same : row = other
    · subst same
      rw [if_pos rfl]
      constructor
      · intro impossible
        cases impossible
      · intro place
        have ahead := before place
        rw [List.getElem?_eraseIdx_of_lt ahead] at place
        have equal := (mirrors row i).2 place
        rw [found, Option.some.injEq] at equal
        omega
    · rw [if_neg same, mirrors other i]
      constructor
      · intro place
        by_cases ahead : i < position
        · rwa [List.getElem?_eraseIdx_of_lt ahead]
        · exfalso
          have different : i ≠ position := by
            rintro rfl
            rw [here, Option.some.injEq] at place
            exact same place
          apply later
          apply List.mem_iff_getElem?.2
          refine ⟨i - 1 - position, ?_⟩
          rw [List.getElem?_drop, Nat.add_sub_cancel' (by omega),
            List.getElem?_eraseIdx_of_ge (by omega), Nat.sub_add_cancel (by omega)]
          exact place
      · intro place
        rwa [List.getElem?_eraseIdx_of_lt (before place)] at place

end Mirrors

end BranchCutPrice.Relaxation
