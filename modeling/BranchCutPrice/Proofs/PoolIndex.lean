import BranchCutPrice.Proofs.Pools
import Mathlib.Logic.Relation

/-!
The index of a pool and its cursor. Every position stands once in the index, under the hash
of its entry, and the entries before the cursor were checked against the solution that the
pool was last scanned for. Every operation keeps that, refused or not, whatever became of
the registry in between.
-/

namespace BranchCutPrice

variable {kind : Kind} {α : Type}

namespace Pool

/-! ### The index -/

/-- The positions that an index keeps under a hash. -/
def filed (index : Std.TreeMap UInt64 (List Nat)) (hash : UInt64) : List Nat :=
  index[hash]?.getD []

section Index

variable {index : Std.TreeMap UInt64 (List Nat)} {hash other : UInt64} {bucket : List Nat}

private theorem index_insert : (index.insert hash bucket)[other]? =
    if hash = other then some bucket else index[other]? := by
  simp only [Std.TreeMap.getElem?_insert, Std.LawfulEqOrd.compare_eq_iff_eq]

private theorem index_erase :
    (index.erase hash)[other]? = if hash = other then none else index[other]? := by
  simp only [Std.TreeMap.getElem?_erase, Std.LawfulEqOrd.compare_eq_iff_eq]

theorem filed_insert : filed (index.insert hash bucket) other =
    if hash = other then bucket else filed index other := by
  unfold filed
  rw [index_insert]
  split <;> rfl

theorem filed_unindex (position : Nat) : filed (unindex index hash position) other =
    if hash = other then (filed index other).filter (· != position) else filed index other := by
  unfold unindex
  by_cases same : hash = other
  · subst same
    rw [if_pos rfl]
    unfold filed
    cases found : index[hash]? with
    | none =>
      rw [found]
      rfl
    | some bucket =>
      dsimp only
      split
      · rename_i bare
        rw [index_erase, if_pos rfl]
        exact (List.isEmpty_iff.1 bare).symm
      · rw [index_insert, if_pos rfl]
        rfl
  · rw [if_neg same]
    unfold filed
    cases index[hash]? with
    | none => rfl
    | some bucket =>
      dsimp only
      split
      · rw [index_erase, if_neg same]
      · rw [index_insert, if_neg same]

theorem filed_reindex (old new : Nat) : filed (reindex index hash old new) other =
    if hash = other then (filed index other).replace old new else filed index other := by
  unfold reindex filed
  by_cases same : hash = other
  · subst same
    rw [if_pos rfl]
    cases found : index[hash]? with
    | none =>
      rw [found]
      rfl
    | some bucket =>
      dsimp only
      rw [index_insert, if_pos rfl]
      rfl
  · rw [if_neg same]
    cases index[hash]? with
    | none => rfl
    | some bucket =>
      dsimp only
      rw [index_insert, if_neg same]

/-- No hash is kept without a position. -/
def Trim (index : Std.TreeMap UInt64 (List Nat)) : Prop :=
  ∀ hash : UInt64, index[hash]? ≠ some []

theorem Trim.insert (trim : Trim index) (inhabited : bucket ≠ []) :
    Trim (index.insert hash bucket) := by
  intro other
  rw [index_insert]
  split
  · simpa using inhabited
  · exact trim other

theorem Trim.unindex (trim : Trim index) (position : Nat) :
    Trim (unindex index hash position) := by
  unfold Pool.unindex
  cases index[hash]? with
  | none => exact trim
  | some bucket =>
    dsimp only
    split
    · intro other
      rw [index_erase]
      split
      · simp
      · exact trim other
    · rename_i inhabited
      exact trim.insert fun bare => inhabited (List.isEmpty_iff.2 bare)

theorem Trim.reindex (trim : Trim index) (old new : Nat) : Trim (reindex index hash old new) := by
  unfold Pool.reindex
  cases found : index[hash]? with
  | none => exact trim
  | some bucket =>
    apply trim.insert
    intro bare
    have length := congrArg List.length bare
    rw [List.length_replace] at length
    exact trim hash (found.trans (congrArg some (List.eq_nil_of_length_eq_zero length)))

end Index

/-! ### Consistency -/

/-- The hash recorded at a position. -/
def hashAt (pool : Pool kind α) (position : Nat) : Option UInt64 :=
  pool.entries[position]?.map PoolEntry.hash

structure Consistent (pool : Pool kind α) : Prop where
  positions : ∀ (i : Nat) (entry : PoolEntry kind), pool.entries[i]? = some entry →
    entry.position = i
  trim : Trim pool.index
  /-- Every position stands once in the index, under its hash, and nothing else does. -/
  once : ∀ hash i,
    (filed pool.index hash).count i = if pool.hashAt i = some hash then 1 else 0
  cursor : pool.cursor ≤ pool.entries.size
  checked : ∀ (i : Nat) (entry : PoolEntry kind), i < pool.cursor →
    pool.entries[i]? = some entry → entry.processed = pool.processed

/-- Changes the entry at a position. -/
def amend (pool : Pool kind α) (position : Nat) (f : PoolEntry kind → PoolEntry kind) :
    Pool kind α :=
  { pool with entries := pool.entries.modify position f }

theorem getElem?_amend (pool : Pool kind α) (position : Nat) (f : PoolEntry kind → PoolEntry kind)
    (i : Nat) : (pool.amend position f).entries[i]? =
      if position = i then pool.entries[i]?.map f else pool.entries[i]? :=
  Array.getElem?_modify

theorem getElem?_amend_self {pool : Pool kind α} {position : Nat} {entry : PoolEntry kind}
    (found : pool.entries[position]? = some entry) (f : PoolEntry kind → PoolEntry kind) :
    (pool.amend position f).entries[position]? = some (f entry) := by
  rw [getElem?_amend, if_pos rfl, found]
  rfl

@[simp]
theorem size_amend (pool : Pool kind α) (position : Nat) (f : PoolEntry kind → PoolEntry kind) :
    (pool.amend position f).entries.size = pool.entries.size :=
  Array.size_modify

theorem Consistent.empty (key : Key α) (ageLimit : Nat) :
    (Pool.empty key ageLimit : Pool kind α).Consistent where
  positions _ _ found := by simp [Pool.empty] at found
  trim hash := by simp [Pool.empty]
  once hash i := by simp [Pool.empty, filed, hashAt]
  cursor := Nat.le_refl _
  checked _ _ _ found := by simp [Pool.empty] at found

namespace Consistent

variable {pool : Pool kind α}

/-- The positions under a hash are those of the entries with that hash. -/
theorem mem_filed (consistent : pool.Consistent) {hash : UInt64} {i : Nat} :
    i ∈ filed pool.index hash ↔ ∃ entry, pool.entries[i]? = some entry ∧ entry.hash = hash := by
  rw [← List.count_pos_iff, consistent.once]
  unfold hashAt
  cases pool.entries[i]? with
  | none => simp
  | some entry => by_cases same : entry.hash = hash <;> simp [same]

theorem push (consistent : pool.Consistent) (handle : Handle kind) (hash : UInt64) :
    (pool.push handle hash).Consistent := by
  have looked (i : Nat) : (pool.push handle hash).entries[i]? =
      if i = pool.entries.size then some ⟨handle, 0, none, pool.entries.size, hash⟩
      else pool.entries[i]? := Array.getElem?_push
  constructor
  · intro i entry found
    rw [looked] at found
    split at found
    · cases found
      exact Eq.symm ‹_›
    · exact consistent.positions i entry found
  · exact consistent.trim.insert (by simp)
  · intro other i
    change (filed (pool.index.insert hash (filed pool.index hash ++ [pool.entries.size]))
      other).count i = _
    have before := consistent.once other i
    unfold hashAt at before ⊢
    rw [looked, filed_insert]
    by_cases new : i = pool.entries.size
    · subst new
      rw [Array.getElem?_eq_none (Nat.le_refl _)] at before
      by_cases same : hash = other
      · subst same
        simpa [List.count_append] using before
      · simpa [same] using before
    · rw [if_neg new, ← before]
      by_cases same : hash = other
      · subst same
        simp [List.count_append, Ne.symm new]
      · rw [if_neg same]
  · have size : (pool.push handle hash).entries.size = pool.entries.size + 1 := Array.size_push _
    have bound := consistent.cursor
    change pool.cursor ≤ _
    omega
  · intro i entry early found
    have early : i < pool.cursor := early
    have bound := consistent.cursor
    rw [looked, if_neg (by omega)] at found
    exact consistent.checked i entry early found

/-- Entries may change as long as their positions and hashes stay, and those before the
cursor stay checked. -/
theorem amend (consistent : pool.Consistent) {position : Nat}
    {f : PoolEntry kind → PoolEntry kind} (places : ∀ entry, (f entry).position = entry.position)
    (hashes : ∀ entry, (f entry).hash = entry.hash)
    (checks : position < pool.cursor → ∀ entry, entry.processed = pool.processed →
      (f entry).processed = pool.processed) : (pool.amend position f).Consistent := by
  constructor
  · intro i entry found
    rw [getElem?_amend] at found
    split at found
    · obtain ⟨old, there, rfl⟩ := Option.map_eq_some_iff.1 found
      rw [places]
      exact consistent.positions i old there
    · exact consistent.positions i entry found
  · exact consistent.trim
  · intro hash i
    have before := consistent.once hash i
    unfold hashAt at before ⊢
    rw [getElem?_amend]
    split
    · rw [Option.map_map, show PoolEntry.hash ∘ f = PoolEntry.hash from funext hashes]
      exact before
    · exact before
  · rw [size_amend]
    exact consistent.cursor
  · intro i entry early found
    rw [getElem?_amend] at found
    split at found
    · obtain ⟨old, there, rfl⟩ := Option.map_eq_some_iff.1 found
      rename_i here
      exact checks (here ▸ early) old (consistent.checked i old early there)
    · exact consistent.checked i entry early found

end Consistent

/-! ### Taking an entry out -/

section Detach

variable {pool : Pool kind α} {position : Nat} {removed : PoolEntry kind}

/-- The last entry takes the place of the one taken out. -/
theorem getElem?_detach (found : pool.entries[position]? = some removed) (i : Nat) :
    (pool.detach position removed).entries[i]? =
      if i = pool.entries.size - 1 then none
      else if i = position then
        pool.entries[pool.entries.size - 1]?.map fun moved => { moved with position := position }
      else pool.entries[i]? := by
  have bound := (Array.getElem?_eq_some_iff.1 found).1
  by_cases inside : position < pool.entries.size - 1
  · obtain ⟨moved, last⟩ : ∃ moved, pool.entries[pool.entries.size - 1]? = some moved :=
      ⟨_, Array.getElem?_eq_getElem (by omega)⟩
    rw [detach_inside inside last, Array.getElem?_pop, Array.size_setIfInBounds,
      Array.getElem?_setIfInBounds, last]
    grind
  · rw [detach_last inside, Array.getElem?_pop]
    grind

theorem size_detach (pool : Pool kind α) (position : Nat) (removed : PoolEntry kind) :
    (pool.detach position removed).entries.size = pool.entries.size - 1 := by
  unfold detach
  dsimp only
  split
  · simp
  · simp

theorem processed_detach (pool : Pool kind α) (position : Nat) (removed : PoolEntry kind) :
    (pool.detach position removed).processed = pool.processed := by
  unfold detach
  dsimp only
  split <;> rfl

theorem key_detach (pool : Pool kind α) (position : Nat) (removed : PoolEntry kind) :
    (pool.detach position removed).key = pool.key := by
  unfold detach
  dsimp only
  split <;> rfl

theorem ageLimit_detach (pool : Pool kind α) (position : Nat) (removed : PoolEntry kind) :
    (pool.detach position removed).ageLimit = pool.ageLimit := by
  unfold detach
  dsimp only
  split <;> rfl

theorem cursor_detach_le (pool : Pool kind α) (position : Nat) (removed : PoolEntry kind) :
    (pool.detach position removed).cursor ≤ pool.cursor := by
  unfold detach
  dsimp only
  split
  · exact Nat.min_le_left _ _
  · dsimp only
    split <;> omega

theorem cursor_detach_last (pool : Pool kind α) (position : Nat) (removed : PoolEntry kind) :
    (pool.detach position removed).cursor ≤ pool.entries.size - 1 := by
  unfold detach
  dsimp only
  split <;> exact Nat.min_le_right _ _

/-- The cursor does not pass over an entry that moved without being checked. -/
theorem cursor_detach_moved {moved : PoolEntry kind} (inside : position < pool.entries.size - 1)
    (last : pool.entries[pool.entries.size - 1]? = some moved)
    (unchecked : moved.processed ≠ pool.processed) :
    (pool.detach position removed).cursor ≤ position := by
  unfold detach
  simp only [if_pos inside, last, if_neg unchecked]
  omega

theorem index_detach_inside {moved : PoolEntry kind} (inside : position < pool.entries.size - 1)
    (last : pool.entries[pool.entries.size - 1]? = some moved) :
    (pool.detach position removed).index =
      reindex (unindex pool.index removed.hash position) moved.hash (pool.entries.size - 1)
        position := by
  unfold detach
  simp only [if_pos inside, last]

theorem index_detach_last (outside : ¬position < pool.entries.size - 1) :
    (pool.detach position removed).index = unindex pool.index removed.hash position := by
  unfold detach
  simp only [if_neg outside]

namespace Consistent

/-- Taking a position out of the index leaves the other ones where they are. -/
theorem count_unindex (consistent : pool.Consistent)
    (found : pool.entries[position]? = some removed) (hash : UInt64) (i : Nat) :
    (filed (unindex pool.index removed.hash position) hash).count i =
      if i = position then 0 else (filed pool.index hash).count i := by
  rw [filed_unindex]
  by_cases same : removed.hash = hash
  · rw [if_pos same]
    by_cases here : i = position
    · rw [if_pos here, List.count_eq_zero]
      simp [here]
    · rw [if_neg here, List.count_filter (by simpa using here)]
  · rw [if_neg same]
    by_cases here : i = position
    · rw [if_pos here, consistent.once, here, hashAt, found, Option.map_some,
        if_neg (by simpa using same)]
    · rw [if_neg here]

theorem count_detach (consistent : pool.Consistent)
    (found : pool.entries[position]? = some removed) (hash : UInt64) (i : Nat) :
    (filed (pool.detach position removed).index hash).count i =
      if i = pool.entries.size - 1 then 0
      else if i = position then if pool.hashAt (pool.entries.size - 1) = some hash then 1 else 0
      else (filed pool.index hash).count i := by
  have bound := (Array.getElem?_eq_some_iff.1 found).1
  have left := consistent.count_unindex found hash
  by_cases inside : position < pool.entries.size - 1
  · obtain ⟨moved, last⟩ : ∃ moved, pool.entries[pool.entries.size - 1]? = some moved :=
      ⟨_, Array.getElem?_eq_getElem (by omega)⟩
    have lastOnce := consistent.once hash (pool.entries.size - 1)
    rw [index_detach_inside inside last, filed_reindex]
    unfold hashAt at lastOnce ⊢
    simp only [last, Option.map_some, Option.some.injEq] at lastOnce ⊢
    have leftLast := left (pool.entries.size - 1)
    rw [if_neg (by omega), lastOnce] at leftLast
    have leftHere := left position
    rw [if_pos rfl] at leftHere
    by_cases same : moved.hash = hash
    · rw [if_pos same] at leftLast ⊢
      have member : (filed (unindex pool.index removed.hash position) hash).contains
          (pool.entries.size - 1) = true :=
        List.contains_iff_mem.2 (List.count_pos_iff.1 (by omega))
      rw [List.count_replace, if_pos member, left]
      grind
    · rw [if_neg same] at leftLast ⊢
      rw [left]
      grind
  · have position_eq : position = pool.entries.size - 1 := by omega
    rw [index_detach_last inside, left, position_eq]
    split <;> rfl

theorem detach (consistent : pool.Consistent)
    (found : pool.entries[position]? = some removed) :
    (pool.detach position removed).Consistent := by
  have bound := (Array.getElem?_eq_some_iff.1 found).1
  have looked := getElem?_detach found
  constructor
  · intro i entry there
    rw [looked] at there
    split at there
    · cases there
    · split at there
      · obtain ⟨moved, last, rfl⟩ := Option.map_eq_some_iff.1 there
        exact Eq.symm ‹i = position›
      · exact consistent.positions i entry there
  · by_cases inside : position < pool.entries.size - 1
    · obtain ⟨moved, last⟩ : ∃ moved, pool.entries[pool.entries.size - 1]? = some moved :=
        ⟨_, Array.getElem?_eq_getElem (by omega)⟩
      rw [index_detach_inside inside last]
      exact (consistent.trim.unindex position).reindex _ _
    · rw [index_detach_last inside]
      exact consistent.trim.unindex position
  · intro hash i
    have hashed : (pool.detach position removed).hashAt i =
        if i = pool.entries.size - 1 then none
        else if i = position then pool.hashAt (pool.entries.size - 1) else pool.hashAt i := by
      unfold hashAt
      rw [looked]
      split
      · rfl
      · split
        · rw [Option.map_map]
          rfl
        · rfl
    rw [consistent.count_detach found hash i, hashed, consistent.once]
    split
    · simp
    · split <;> rfl
  · rw [size_detach]
    exact cursor_detach_last pool position removed
  · intro i entry early there
    rw [processed_detach]
    have before := cursor_detach_le pool position removed
    rw [looked] at there
    split at there
    · cases there
    · rename_i notLast
      split at there
      · rename_i here
        obtain ⟨moved, last, rfl⟩ := Option.map_eq_some_iff.1 there
        by_contra unchecked
        have inside : position < pool.entries.size - 1 := by omega
        have behind : (pool.detach position removed).cursor ≤ position :=
          cursor_detach_moved inside last unchecked
        omega
      · exact consistent.checked i entry (by omega) there

end Consistent

end Detach

end Pool

end BranchCutPrice
