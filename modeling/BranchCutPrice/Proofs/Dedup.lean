import BranchCutPrice.Proofs.Doubles
import BranchCutPrice.Proofs.Retention
import Mathlib.Data.List.Zip

/-!
Pools without duplicates. As long as objects are only added when they are new, no object
stands in a pool twice or beside an equal one, and looking under one hash finds what a
search through all entries would find. For that, equal objects must have equal hashes.
-/

namespace BranchCutPrice

variable {kind : Kind} {α : Type}

/-! ### Keys -/

theorem Row.structuralHash_eq {left right : Row} {tolerance : Float}
    (same : left.sameCut right tolerance = true) :
    left.structuralHash = right.structuralHash := by
  unfold sameCut at same
  simp only [Bool.and_eq_true, beq_iff_eq] at same
  obtain ⟨⟨⟨⟨⟨⟨size, first⟩, last⟩, peaks⟩, _⟩, _⟩, _⟩ := same
  unfold structuralHash
  rw [size, first, last, peaks]

theorem Column.structuralHash_eq {left right : Column} {tolerance : Float}
    (same : left.sameColumn right tolerance = true) :
    left.structuralHash = right.structuralHash := by
  unfold sameColumn SparseVec.near at same
  simp only [Bool.and_eq_true, beq_iff_eq] at same
  obtain ⟨⟨⟨⟨size, _⟩, _⟩, _⟩, indices, _⟩ := same
  unfold structuralHash SparseVec.firstIndex SparseVec.lastIndex
  rw [size, indices]

structure Key.Sound (key : Key α) : Prop where
  symm : ∀ left right, key.same left right = true → key.same right left = true
  hashes : ∀ left right, key.same left right = true → key.hash left = key.hash right

theorem SparseVec.near_comm (left right : SparseVec) (tolerance : Float) :
    left.near right tolerance = right.near left tolerance := by
  unfold near
  rw [Bool.beq_comm, ← List.zip_swap, List.all_map]
  congr 2
  funext pair
  exact congrArg (decide <| · ≤ tolerance) (Double.abs_sub_comm pair.2 pair.1)

theorem Row.key_sound (tolerance : Float) : (Row.key tolerance).Sound where
  symm left right same := by
    simp only [key, sameCut, Bool.and_eq_true, beq_iff_eq] at same ⊢
    obtain ⟨⟨⟨⟨⟨⟨size, first⟩, last⟩, peaks⟩, lower⟩, upper⟩, coefs⟩ := same
    refine ⟨⟨⟨⟨⟨⟨size.symm, first.symm⟩, last.symm⟩, peaks.symm⟩, ?_⟩, ?_⟩, ?_⟩
    · rwa [Double.close_comm]
    · rwa [Double.close_comm]
    · rwa [SparseVec.near_comm]
  hashes _ _ := Row.structuralHash_eq

theorem Column.key_sound (tolerance : Float) : (Column.key tolerance).Sound where
  symm left right same := by
    simp only [key, sameColumn, Bool.and_eq_true, beq_iff_eq] at same ⊢
    obtain ⟨⟨⟨⟨size, objective⟩, lower⟩, upper⟩, coefs⟩ := same
    refine ⟨⟨⟨⟨size.symm, ?_⟩, ?_⟩, ?_⟩, ?_⟩
    · rwa [Double.abs_sub_comm]
    · rwa [Double.close_comm]
    · rwa [Double.close_comm]
    · rwa [SparseVec.near_comm]
  hashes _ _ := Column.structuralHash_eq

/-! ### Looking for an object -/

namespace Stock

open BranchCutPrice.Action Pool

variable {s s' : Stock kind α}

/-- An entry answers for an object if it holds that object or an equal one. -/
def Answers (s : Stock kind α) (handle : Handle kind) (item : α) (entry : PoolEntry kind) :
    Prop :=
  entry.handle = handle ∨
    ∃ stored, s.registry.get entry.handle = .ok stored ∧ s.pool.key.same stored item = true

/-- Every entry is filed under the hash of its object. -/
def Filed (s : Stock kind α) : Prop :=
  ∀ (i : Nat) (entry : PoolEntry kind), s.pool.entries[i]? = some entry →
    ∃ item, s.registry.get entry.handle = .ok item ∧ entry.hash = s.pool.key.hash item

variable {handle : Handle kind} {item : α}

/-- A search finds an entry that answers, or finds that none does among the given ones. -/
def Settles (s : Stock kind α) (handle : Handle kind) (item : α) (among : Nat → Prop)
    (outcome : Except Error (Option Nat)) : Prop :=
  (∃ i entry, s.pool.entries[i]? = some entry ∧ Answers s handle item entry ∧
    outcome = .ok (some i)) ∨
  (outcome = .ok none ∧ ∀ i, among i → ∀ entry, s.pool.entries[i]? = some entry →
    ¬Answers s handle item entry)

theorem findAmong_settles (live : ∀ handle ∈ s.pool.handles, s.registry.contains handle = true)
    (positions : List Nat) :
    Settles s handle item (· ∈ positions)
      (s.pool.findAmong s.registry handle item positions) := by
  induction positions with
  | nil => exact .inr ⟨rfl, by simp⟩
  | cons position rest ih =>
    -- passing over the first position, the search goes on with the others
    have further (skips : s.pool.findAmong s.registry handle item (position :: rest) =
          s.pool.findAmong s.registry handle item rest)
        (silent : ∀ entry, s.pool.entries[position]? = some entry →
          ¬Answers s handle item entry) :
        Settles s handle item (· ∈ position :: rest)
          (s.pool.findAmong s.registry handle item (position :: rest)) := by
      rw [skips]
      apply ih.imp_right
      rintro ⟨none, quiet⟩
      refine ⟨none, fun i member entry there => ?_⟩
      obtain rfl | later := List.mem_cons.1 member
      · exact silent entry there
      · exact quiet i later entry there
    cases there : s.pool.entries[position]? with
    | none =>
      apply further
      · rw [findAmong, there]
      · intro entry other
        rw [there] at other
        cases other
    | some entry =>
      obtain ⟨stored, got⟩ := Registry.contains_iff_get.1 (live entry.handle (handle_mem there))
      by_cases same : entry.handle = handle
      · refine .inl ⟨position, entry, there, .inl same, ?_⟩
        rw [findAmong, there]
        exact if_pos same
      · by_cases equal : s.pool.key.same stored item = true
        · refine .inl ⟨position, entry, there, .inr ⟨stored, got, equal⟩, ?_⟩
          rw [findAmong, there]
          simp [same, got, equal, bind, Except.bind, pure, Except.pure]
        · apply further
          · rw [findAmong, there]
            simp [same, got, equal, bind, Except.bind]
          · intro other again answers
            cases there.symm.trans again
            obtain here | ⟨stored', got', equal'⟩ := answers
            · exact same here
            · cases got.symm.trans got'
              exact equal equal'

theorem Filed.hash_eq (filed : Filed s) (sound : s.pool.key.Sound)
    (got : s.registry.get handle = .ok item) {i : Nat} {entry : PoolEntry kind}
    (there : s.pool.entries[i]? = some entry) (answers : Answers s handle item entry) :
    entry.hash = s.pool.key.hash item := by
  obtain ⟨stored, found, hashed⟩ := filed i entry there
  obtain rfl | ⟨stored', found', equal⟩ := answers
  · cases got.symm.trans found
    exact hashed
  · cases found.symm.trans found'
    exact hashed.trans (sound.hashes stored item equal)

/-- Looking for a registered object is never refused if all stored ones are registered. -/
theorem find_registered (live : ∀ handle ∈ s.pool.handles, s.registry.contains handle = true)
    (got : s.registry.get handle = .ok item) :
    Settles s handle item (· ∈ Pool.filed s.pool.index (s.pool.key.hash item))
      (s.pool.find s.registry handle) := by
  have search : s.pool.find s.registry handle =
      s.pool.findAmong s.registry handle item (Pool.filed s.pool.index (s.pool.key.hash item)) := by
    unfold find
    rw [got]
    rfl
  rw [search]
  exact findAmong_settles live _

theorem Filed.live (filed : Filed s) :
    ∀ handle ∈ s.pool.handles, s.registry.contains handle = true := by
  intro handle stored
  obtain ⟨entry, inside, rfl⟩ := mem_handles.1 stored
  obtain ⟨i, there⟩ := Array.mem_iff_getElem?.1 inside
  obtain ⟨item, got, _⟩ := filed i entry there
  exact Registry.contains_iff_get.2 ⟨item, got⟩

/-- Looking under one hash is as good as looking through all entries. -/
theorem find_settles (consistent : s.pool.Consistent) (filed : Filed s)
    (sound : s.pool.key.Sound) (got : s.registry.get handle = .ok item) :
    Settles s handle item (fun _ => True) (s.pool.find s.registry handle) := by
  apply (find_registered filed.live got).imp_right
  rintro ⟨none, quiet⟩
  refine ⟨none, fun i _ entry there answers => ?_⟩
  have hashed := filed.hash_eq sound got there answers
  exact quiet i (consistent.mem_filed.2 ⟨entry, there, hashed⟩) entry there answers

theorem addIfNew_found [Poolable α] {i : Nat} {entry : PoolEntry kind}
    (there : s.pool.entries[i]? = some entry)
    (found : s.pool.find s.registry handle = .ok (some i)) :
    addIfNew handle s = ⟨.ok (entry.handle, true), s, []⟩ := by
  have stored : s.pool.entryOf s.registry handle = .ok (some entry) := by
    unfold entryOf
    rw [found]
    exact congrArg Except.ok there
  change ((Action.read fun s => s.pool.entryOf s.registry handle) s).andThen _ = _
  unfold Action.read
  simp only [stored]
  rfl

theorem addIfNew_missing [Poolable α] {registry : Registry kind α}
    (got : s.registry.get handle = .ok item) (fixed : Poolable.modifiable item = false)
    (captured : s.registry.capture handle = .ok registry)
    (missing : s.pool.find s.registry handle = .ok none) :
    addIfNew handle s =
      ⟨.ok (handle, false), ⟨s.pool.push handle (s.pool.key.hash item), registry⟩, []⟩ := by
  have stored : s.pool.entryOf s.registry handle = .ok none := by
    unfold entryOf
    rw [missing]
    rfl
  have added : add handle s =
      ⟨.ok (), ⟨s.pool.push handle (s.pool.key.hash item), registry⟩, []⟩ := by
    unfold add change
    simp [got, fixed, captured, bind, Except.bind, pure, Except.pure]
  change ((Action.read fun s => s.pool.entryOf s.registry handle) s).andThen _ = _
  unfold Action.read
  simp only [stored]
  change (((add handle) s).andThen _).after [] = _
  rw [added]
  rfl

/-! ### Pools without duplicates -/

structure Sparse (key : Key α) (s : Stock kind α) : Prop where
  keyed : s.pool.key = key
  consistent : s.pool.Consistent
  filed : Filed s
  distinct : s.pool.handles.Nodup
  apart : ∀ left ∈ s.pool.handles, ∀ right ∈ s.pool.handles, left ≠ right → ∀ x y,
    s.registry.get left = .ok x → s.registry.get right = .ok y → key.same x y = false

namespace Sparse

variable {key : Key α}

theorem empty (key : Key α) (ageLimit : Nat) (registry : Registry kind α) :
    Sparse key ⟨Pool.empty key ageLimit, registry⟩ where
  keyed := rfl
  consistent := .empty key ageLimit
  filed _ _ found := by simp [Pool.empty] at found
  distinct := Multiset.nodup_zero
  apart _ member := absurd member (Multiset.notMem_zero _)

theorem retain (sparse : Sparse key s) (retains : s.Retains s')
    (consistent : s'.pool.Consistent) : Sparse key s' where
  keyed := retains.key.trans sparse.keyed
  consistent := consistent
  filed i entry found := by
    obtain ⟨j, old, there, handles, hashes⟩ := retains.entries i entry found
    obtain ⟨item, got, hashed⟩ := sparse.filed j old there
    refine ⟨item, ?_, ?_⟩
    · rw [retains.items _ (handle_mem found), ← handles]
      exact got
    · rw [← hashes, hashed, retains.key]
  distinct := retains.nodup sparse.distinct
  apart left memberLeft right memberRight different x y gotLeft gotRight := by
    rw [retains.items left memberLeft] at gotLeft
    rw [retains.items right memberRight] at gotRight
    exact sparse.apart left (Multiset.mem_of_le retains.handles memberLeft) right
      (Multiset.mem_of_le retains.handles memberRight) different x y gotLeft gotRight

/-- What nothing answers for may be added. -/
theorem push (sparse : Sparse key s) (sound : key.Sound) {registry : Registry kind α}
    (got : s.registry.get handle = .ok item)
    (same : ∀ other, registry.get other = s.registry.get other)
    (missing : ∀ (i : Nat) (entry : PoolEntry kind), s.pool.entries[i]? = some entry →
      ¬Answers s handle item entry) :
    Sparse key ⟨s.pool.push handle (s.pool.key.hash item), registry⟩ := by
  have entry_of (other : Handle kind) (member : other ∈ s.pool.handles) :
      ∃ (i : Nat) (entry : PoolEntry kind), s.pool.entries[i]? = some entry ∧
        entry.handle = other := by
    obtain ⟨entry, inside, rfl⟩ := List.mem_map.1 (Multiset.mem_coe.1 member)
    obtain ⟨i, found⟩ := List.getElem?_of_mem inside
    exact ⟨i, entry, Array.getElem?_toList.symm.trans found, rfl⟩
  have absent : handle ∉ s.pool.handles := by
    intro member
    obtain ⟨i, entry, found, here⟩ := entry_of handle member
    exact missing i entry found (.inl here)
  have unequal (other : Handle kind) (member : other ∈ s.pool.handles) (stored : α)
      (found : s.registry.get other = .ok stored) : key.same stored item = false := by
    obtain ⟨i, entry, there, rfl⟩ := entry_of other member
    rw [← Bool.not_eq_true, ← sparse.keyed]
    exact fun equal => missing i entry there (.inr ⟨stored, found, equal⟩)
  refine ⟨sparse.keyed, sparse.consistent.push handle _, ?_, ?_, ?_⟩
  · intro i entry found
    change (s.pool.push handle (s.pool.key.hash item)).entries[i]? = _ at found
    change ∃ stored, registry.get entry.handle = .ok stored ∧ _
    rw [same]
    unfold Pool.push at found
    rw [Array.getElem?_push] at found
    split at found
    · cases found
      exact ⟨item, got, rfl⟩
    · exact sparse.filed i entry found
  · rw [handles_push]
    exact Multiset.nodup_cons.2 ⟨absent, sparse.distinct⟩
  · intro left memberLeft right memberRight different x y gotLeft gotRight
    rw [handles_push, Multiset.mem_cons] at memberLeft memberRight
    change registry.get left = _ at gotLeft
    change registry.get right = _ at gotRight
    rw [same] at gotLeft gotRight
    obtain rfl | memberLeft := memberLeft
    · obtain rfl | memberRight := memberRight
      · exact absurd rfl different
      · cases got.symm.trans gotLeft
        rw [← Bool.not_eq_true]
        intro equal
        have reverse := sound.symm _ _ equal
        rw [unequal right memberRight y gotRight] at reverse
        cases reverse
    · obtain rfl | memberRight := memberRight
      · cases got.symm.trans gotRight
        exact unequal left memberLeft x gotLeft
      · exact sparse.apart left memberLeft right memberRight different x y gotLeft gotRight

theorem addIfNew [Poolable α] (sparse : Sparse key s) (sound : key.Sound)
    (handle : Handle kind) :
    (Stock.addIfNew handle).Reaches s fun s' => Sparse key s' := by
  have sound' : s.pool.key.Sound := sparse.keyed ▸ sound
  apply addIfNew_leads sparse
  rintro s' missing ⟨item, registry, got, _, captured, rfl⟩
  obtain ⟨i, entry, there, _, found⟩ | ⟨_, quiet⟩ :=
    find_settles sparse.consistent sparse.filed sound' got
  · have listed : s.pool.entryOf s.registry handle = .ok (some entry) := by
      unfold entryOf
      rw [found]
      exact congrArg Except.ok there
    cases listed.symm.trans missing
  · exact sparse.push sound got (fun other => (Registry.get_capture captured other).1)
      fun i entry => quiet i trivial entry

end Sparse

end Stock

/-! ### Runs -/

namespace StockCall

open BranchCutPrice.Action

/-- Whether a call adds nothing that is there already. -/
def spares : StockCall kind α → Bool
  | add _ => false
  | _ => true

theorem perform_sparse [Poolable α] {key : Key α} {s : Stock kind α} (call : StockCall kind α)
    (spares : call.spares = true) (sound : key.Sound) (sparse : s.Sparse key) :
    call.perform.Reaches s fun s' => s'.Sparse key := by
  have retained {act : Action (Stock kind α) Unit} (retains : act.Reaches s s.Retains)
      (consistent : act.Reaches s fun s' => s'.pool.Consistent) :
      act.Reaches s fun s' => s'.Sparse key :=
    Reaches.mono (retains.and consistent) fun _ kept => sparse.retain kept.1 kept.2
  have consistent := call.perform_consistent sparse.consistent
  cases call with
  | add handle => cases spares
  | addIfNew handle => exact discard_reaches.2 (sparse.addIfNew sound handle)
  | reserve additional =>
    refine retained (ensures_change.2 ⟨fun s' changed => ?_, fun _ _ => .refl s⟩) consistent
    unfold Pool.reserve at changed
    split at changed
    · cases changed
      exact .refl s
    · cases changed
  | remove handle => exact retained (Stock.remove_retains sparse.distinct handle) consistent
  | scan solution check =>
    exact retained (discard_reaches.2 (Stock.scan_retains sparse.distinct solution check))
      consistent
  | clear => exact retained Stock.clear_retains consistent

end StockCall

namespace Stock

variable [Poolable α]

/-- A call that adds nothing that is there already, or whatever else leaves the objects of the
entries as they are. -/
inductive Spares (s : Stock kind α) : Stock kind α → Prop where
  | call (call : StockCall kind α) (spares : call.spares = true) : Spares s (call.perform s).state
  | outside (registry : Registry kind α)
      (same : ∀ handle ∈ s.pool.handles, registry.get handle = s.registry.get handle) :
      Spares s ⟨s.pool, registry⟩

/-- Any number of such steps after the pool was empty. -/
def Spared (key : Key α) (s : Stock kind α) : Prop :=
  ∃ (ageLimit : Nat) (registry : Registry kind α),
    Relation.ReflTransGen Spares ⟨Pool.empty key ageLimit, registry⟩ s

theorem Spared.sparse {key : Key α} {s : Stock kind α} (spared : s.Spared key)
    (sound : key.Sound) : s.Sparse key := by
  obtain ⟨ageLimit, registry, steps⟩ := spared
  induction steps with
  | refl => exact .empty key ageLimit registry
  | @tail s s' _ step sparse =>
    cases step with
    | call call spares => exact Action.reaches_iff.1 (call.perform_sparse spares sound sparse)
    | outside registry same =>
      refine sparse.retain ⟨rfl, le_refl _, fun i entry found => ?_, same⟩ sparse.consistent
      exact ⟨i, entry, found, rfl, rfl⟩

structure Deduplicated (key : Key α) (s : Stock kind α) : Prop where
  keyed : s.pool.key = key
  apart : ∀ (i j : Nat) (left right : PoolEntry kind), s.pool.entries[i]? = some left →
    s.pool.entries[j]? = some right → i ≠ j → left.handle ≠ right.handle ∧
      ∃ x y, s.registry.get left.handle = .ok x ∧ s.registry.get right.handle = .ok y ∧
        key.same x y = false
  decided : ∀ handle item, s.registry.get handle = .ok item →
    ∃ stored, s.pool.contains s.registry handle = .ok stored
  contains : ∀ handle, s.pool.contains s.registry handle = .ok true ↔
    ∃ item, s.registry.get handle = .ok item ∧ ∃ entry ∈ s.pool.entries, Answers s handle item entry
  /-- What is there is not added again. -/
  known : ∀ handle item, s.registry.get handle = .ok item → Poolable.modifiable item = false →
    s.pool.contains s.registry handle = .ok true →
      ∃ entry ∈ s.pool.entries, Answers s handle item entry ∧
        addIfNew handle s = ⟨.ok (entry.handle, true), s, []⟩
  /-- What is not there gets an entry and a user. -/
  new : ∀ handle item, s.registry.get handle = .ok item → Poolable.modifiable item = false →
    s.pool.contains s.registry handle = .ok false →
      ∃ s', addIfNew handle s = ⟨.ok (handle, false), s', []⟩ ∧
        s'.pool.entries = s.pool.entries.push
          ⟨handle, 0, none, s.pool.entries.size, key.hash item⟩ ∧
        ∀ other, s'.registry.get other = s.registry.get other ∧
          s'.registry.users other =
            s.registry.users other + if other = handle then 1 else 0

theorem Sparse.deduplicated {key : Key α} {s : Stock kind α} (sparse : s.Sparse key)
    (sound : key.Sound) : s.Deduplicated key := by
  have sound' : s.pool.key.Sound := sparse.keyed ▸ sound
  have search {handle : Handle kind} {item : α} (got : s.registry.get handle = .ok item) :
      Settles s handle item (fun _ => True) (s.pool.find s.registry handle) :=
    find_settles sparse.consistent sparse.filed sound' got
  have contains_eq {handle : Handle kind} {found : Option Nat}
      (ended : s.pool.find s.registry handle = .ok found) :
      s.pool.contains s.registry handle = .ok found.isSome := by
    unfold Pool.contains
    rw [ended]
    rfl
  constructor
  · exact sparse.keyed
  · intro i j left right foundLeft foundRight different
    have handles : left.handle ≠ right.handle := by
      intro same
      have placed {k : Nat} {entry : PoolEntry kind} (found : s.pool.entries[k]? = some entry) :
          (s.pool.entries.toList.map PoolEntry.handle)[k]? = some entry.handle := by
        rw [List.getElem?_map, Array.getElem?_toList, found]
        rfl
      have left_placed := placed foundLeft
      have bound := (List.getElem?_eq_some_iff.1 left_placed).1
      apply different
      apply (List.getElem?_inj bound (Multiset.coe_nodup.1 sparse.distinct)).1
      rw [left_placed, placed foundRight, same]
    obtain ⟨x, gotLeft, _⟩ := sparse.filed i left foundLeft
    obtain ⟨y, gotRight, _⟩ := sparse.filed j right foundRight
    exact ⟨handles, x, y, gotLeft, gotRight, sparse.apart _ (handle_mem foundLeft) _
      (handle_mem foundRight) handles x y gotLeft gotRight⟩
  · intro handle item got
    obtain ⟨i, _, _, _, found⟩ | ⟨missing, _⟩ := search got
    · exact ⟨_, contains_eq found⟩
    · exact ⟨_, contains_eq missing⟩
  · intro handle
    constructor
    · intro stored
      cases got : s.registry.get handle with
      | error e =>
        unfold Pool.contains Pool.find at stored
        rw [got] at stored
        cases stored
      | ok item =>
        obtain ⟨i, entry, there, answers, _⟩ | ⟨missing, _⟩ := search got
        · exact ⟨item, rfl, entry, Array.mem_of_getElem? there, answers⟩
        · rw [contains_eq missing] at stored
          cases stored
    · rintro ⟨item, got, entry, member, answers⟩
      obtain ⟨i, _, _, _, found⟩ | ⟨_, quiet⟩ := search got
      · exact contains_eq found
      · obtain ⟨i, there⟩ := Array.getElem?_of_mem member
        exact absurd answers (quiet i trivial entry there)
  · intro handle item got _ stored
    obtain ⟨i, entry, there, answers, found⟩ | ⟨missing, _⟩ := search got
    · exact ⟨entry, Array.mem_of_getElem? there, answers, addIfNew_found there found⟩
    · rw [contains_eq missing] at stored
      cases stored
  · intro handle item got fixed absent
    obtain ⟨i, entry, there, answers, found⟩ | ⟨missing, _⟩ := search got
    · rw [contains_eq found] at absent
      cases absent
    · obtain ⟨registry, captured⟩ := Registry.capture_of_get got
      refine ⟨_, addIfNew_missing got fixed captured missing, ?_, fun other =>
        Registry.get_capture captured other⟩
      rw [sparse.keyed]
      rfl

end Stock

/-- Equal cuts and equal columns have equal hashes; and a pool to which only new objects are
added has no duplicates, and is searched as if through all its entries. -/
theorem pool_deduplicated [Poolable α] {key : Key α} {s : Stock kind α} (sound : key.Sound)
    (spared : s.Spared key) :
    (∀ (left right : Row) (tolerance : Float), left.sameCut right tolerance = true →
      left.structuralHash = right.structuralHash) ∧
    (∀ (left right : Column) (tolerance : Float), left.sameColumn right tolerance = true →
      left.structuralHash = right.structuralHash) ∧
    s.Deduplicated key :=
  ⟨fun _ _ _ => Row.structuralHash_eq, fun _ _ _ => Column.structuralHash_eq,
    (spared.sparse sound).deduplicated sound⟩

/-- A row that is equal to a stored one up to rounding is not added beside it. -/
theorem pool_deduplicated_near :
    let row (name : String) (rhs : Float) : Row := ⟨name, ⟨2, [(0, 1.0)]⟩, 0.0, rhs, false⟩
    let rows := (((Registry.empty : Registry .row Row).insert (row "a" 1.0)).2.insert
      (row "b" 1.0000000001)).2
    let stored := (Stock.addIfNew ⟨0, 0⟩ ⟨Pool.empty (Row.key 1e-6) 3, rows⟩).state
    stored.Deduplicated (Row.key 1e-6) ∧
      (Stock.addIfNew ⟨1, 0⟩ stored).result = .ok (⟨0, 0⟩, true) := by
  intro row rows stored
  have spared : stored.Spared (Row.key 1e-6) := by
    refine ⟨3, rows, .single ?_⟩
    have added : stored = ((StockCall.addIfNew ⟨0, 0⟩).perform
        ⟨Pool.empty (Row.key 1e-6) 3, rows⟩).state := (Action.discard_state _ _).symm
    rw [added]
    exact .call _ rfl
  exact ⟨(pool_deduplicated (Row.key_sound 1e-6) spared).2.2, by decide +kernel⟩

end BranchCutPrice
