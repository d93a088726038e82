import BranchCutPrice.Proofs.Dedup

/-!
Pools and objects that may still change. Whether an object is modifiable is asked when it is to be
added, and only one that is not gets an entry. A modifiable object that is to be added in any case
is refused. One that is to be added if it is new is compared with the entries under its hash first,
and if one of them holds it or an equal one, that one is answered. Neither changes anything.
-/

namespace BranchCutPrice

variable {kind : Kind} {α : Type}

/-! ### Entries under a hash -/

namespace Pool

/-- The entries at some positions, in their order. -/
def entriesAt (pool : Pool kind α) (positions : List Nat) : List (PoolEntry kind) :=
  positions.filterMap (pool.entries[·]?)

/-- The entries under a hash, in the order of their arrival. -/
def bucket (pool : Pool kind α) (hash : UInt64) : List (PoolEntry kind) :=
  pool.entriesAt (filed pool.index hash)

theorem Consistent.mem_bucket {pool : Pool kind α} (consistent : pool.Consistent) {hash : UInt64}
    {entry : PoolEntry kind} :
    entry ∈ pool.bucket hash ↔ entry ∈ pool.entries ∧ entry.hash = hash := by
  unfold bucket entriesAt
  rw [List.mem_filterMap]
  constructor
  · rintro ⟨i, under, there⟩
    obtain ⟨other, found, hashed⟩ := consistent.mem_filed.1 under
    cases found.symm.trans there
    exact ⟨Array.mem_of_getElem? there, hashed⟩
  · rintro ⟨member, hashed⟩
    obtain ⟨i, there⟩ := Array.getElem?_of_mem member
    exact ⟨i, consistent.mem_filed.2 ⟨entry, there, hashed⟩, there⟩

end Pool

/-! ### Additions of modifiable objects -/

theorem Registry.get_error {registry : Registry kind α} {handle : Handle kind} {e : Error}
    (refused : registry.get handle = .error e) : e = handle.stale := by
  unfold get shared at refused
  cases found : registry.table.get? handle with
  | some object =>
    rw [found] at refused
    cases refused
  | none =>
    rw [found] at refused
    cases refused
    rfl

namespace Stock

open Pool

/-- A search goes past an entry if its object is registered and is neither the given one nor
equal to it. -/
def Overlooks (s : Stock kind α) (handle : Handle kind) (item : α) (entry : PoolEntry kind) :
    Prop :=
  entry.handle ≠ handle ∧
    ∃ stored, s.registry.get entry.handle = .ok stored ∧ s.pool.key.same stored item = false

/-- What is replied to a modifiable object that is to be added if it is new, by the entries under
its hash in their order. It is refused if the search goes past all of them. The first one that the
search does not go past is answered, unless its own object is gone. -/
inductive Replies (s : Stock kind α) (handle : Handle kind) (item : α) :
    List (PoolEntry kind) → Except Error (Handle kind × Bool) → Prop where
  | refused : Replies s handle item [] (.error (.modifiable kind.text))
  | past {entry : PoolEntry kind} {rest : List (PoolEntry kind)}
      {reply : Except Error (Handle kind × Bool)} :
      s.Overlooks handle item entry → Replies s handle item rest reply →
        Replies s handle item (entry :: rest) reply
  | answered {entry : PoolEntry kind} {rest : List (PoolEntry kind)} :
      s.Answers handle item entry →
        Replies s handle item (entry :: rest) (.ok (entry.handle, true))
  | gone {entry : PoolEntry kind} {rest : List (PoolEntry kind)} {e : Error} :
      entry.handle ≠ handle → s.registry.get entry.handle = .error e →
        Replies s handle item (entry :: rest) (.error e)

variable {s : Stock kind α} {handle : Handle kind} {item : α}

theorem Overlooks.not_answers {entry : PoolEntry kind} (overlooks : s.Overlooks handle item entry) :
    ¬s.Answers handle item entry := by
  obtain ⟨other, stored, got, unequal⟩ := overlooks
  rintro (same | ⟨stored', got', equal⟩)
  · exact other same
  · cases got.symm.trans got'
    exact Bool.eq_false_iff.1 unequal equal

theorem Replies.refused_iff {entries : List (PoolEntry kind)}
    {reply : Except Error (Handle kind × Bool)} (replies : s.Replies handle item entries reply) :
    reply = .error (.modifiable kind.text) ↔ ∀ entry ∈ entries, s.Overlooks handle item entry := by
  induction replies with
  | refused => simp
  | past overlooks _ ih => rw [ih, List.forall_mem_cons, and_iff_right overlooks]
  | answered answers =>
    rw [List.forall_mem_cons]
    exact ⟨nofun, fun all => absurd answers all.1.not_answers⟩
  | gone other gone =>
    rw [List.forall_mem_cons]
    constructor
    · intro same
      rw [Registry.get_error gone] at same
      cases same
    · rintro ⟨⟨_, stored, got, _⟩, _⟩
      cases gone.symm.trans got

/-- The entry that a search through some positions ends at. -/
private def reached (s : Stock kind α) (handle : Handle kind) (item : α) (positions : List Nat) :
    Except Error (Option (PoolEntry kind)) := do
  return (← s.pool.findAmong s.registry handle item positions).bind (s.pool.entries[·]?)

/-- What comes of a search if the object that was searched for is modifiable. -/
private def replied : Except Error (Option (PoolEntry kind)) → Except Error (Handle kind × Bool)
  | .ok (some entry) => .ok (entry.handle, true)
  | .ok none => .error (.modifiable kind.text)
  | .error e => .error e

private theorem reached_replies (positions : List Nat) :
    s.Replies handle item (s.pool.entriesAt positions)
      (replied (s.reached handle item positions)) := by
  induction positions with
  | nil => exact .refused
  | cons position rest ih =>
    unfold reached findAmong entriesAt
    rw [List.filterMap_cons]
    cases there : s.pool.entries[position]? with
    | none => exact ih
    | some entry =>
      dsimp only
      by_cases same : entry.handle = handle
      · rw [if_pos same]
        simp only [pure, Except.pure, bind, Except.bind, Option.bind_some, there]
        exact .answered (.inl same)
      · rw [if_neg same]
        cases got : s.registry.get entry.handle with
        | error e => exact .gone same got
        | ok stored =>
          simp only [bind, Except.bind]
          cases equal : s.pool.key.same stored item with
          | true =>
            rw [if_pos rfl]
            simp only [pure, Except.pure, Option.bind_some, there]
            exact .answered (.inr ⟨stored, got, equal⟩)
          | false =>
            rw [if_neg Bool.false_ne_true]
            exact .past ⟨same, stored, got, equal⟩ ih

variable [Poolable α]

theorem add_modifiable (got : s.registry.get handle = .ok item)
    (modifiable : Poolable.modifiable item = true) :
    add handle s = ⟨.error (.modifiable kind.text), s, []⟩ := by
  unfold add Action.change
  simp [got, modifiable, bind, Except.bind, throw, throwThe, MonadExceptOf.throw]

theorem addIfNew_modifiable (got : s.registry.get handle = .ok item)
    (modifiable : Poolable.modifiable item = true) :
    ∃ reply, s.Replies handle item (s.pool.bucket (s.pool.key.hash item)) reply ∧
      addIfNew handle s = ⟨reply, s, []⟩ := by
  refine ⟨_, reached_replies _, ?_⟩
  have looked : s.pool.entryOf s.registry handle =
      s.reached handle item (filed s.pool.index (s.pool.key.hash item)) := by
    unfold entryOf find
    rw [got]
    rfl
  change ((Action.read fun s => s.pool.entryOf s.registry handle) s).andThen _ = _
  unfold Action.read
  simp only [looked]
  cases s.reached handle item (filed s.pool.index (s.pool.key.hash item)) with
  | error e => rfl
  | ok found =>
    cases found with
    | some entry => rfl
    | none =>
      change (((add handle) s).andThen _).after [] = _
      rw [add_modifiable got modifiable]
      rfl

end Stock

/-! ### Records of additions -/

/-- What a call adds: the object that gets an entry, as it is registered at the time. -/
def StockCall.admits [Poolable α] (s : Stock kind α) (call : StockCall kind α) :
    List (Handle kind × Except Error α) :=
  match call with
  | .add handle | .addIfNew handle =>
      if s.pool.entries.size < (call.perform s).state.pool.entries.size then
        [(handle, s.registry.get handle)]
      else []
  | .reserve _ | .remove _ | .scan _ _ | .clear => []

namespace Pool

variable [Poolable α]

/-- What any calls lead to after the pool was empty, whatever the registry holds at the time of
each, and everything that was added on the way. -/
inductive Filled : Pool kind α → List (Handle kind × Except Error α) → Prop where
  | empty (key : Key α) (ageLimit : Nat) : Filled (.empty key ageLimit) []
  | step {pool : Pool kind α} {record : List (Handle kind × Except Error α)}
      (call : StockCall kind α) (registry : Registry kind α) : Filled pool record →
        Filled (call.perform ⟨pool, registry⟩).state.pool (record ++ call.admits ⟨pool, registry⟩)

variable {pool : Pool kind α} {record : List (Handle kind × Except Error α)}

/-- Nothing is assumed of a pool by keeping a record. -/
theorem reached_iff_filled : pool.Reached ↔ ∃ record, pool.Filled record := by
  constructor
  · rintro ⟨key, ageLimit, calls⟩
    induction calls with
    | refl => exact ⟨[], .empty key ageLimit⟩
    | tail _ called ih =>
      obtain ⟨call, registry, rfl⟩ := called
      obtain ⟨record, filled⟩ := ih
      exact ⟨_, filled.step call registry⟩
  · rintro ⟨record, filled⟩
    induction filled with
    | empty key ageLimit => exact ⟨key, ageLimit, .refl⟩
    | step call registry _ ih =>
      obtain ⟨key, ageLimit, calls⟩ := ih
      exact ⟨key, ageLimit, calls.tail ⟨call, registry, rfl⟩⟩

/-- All additions on record are of objects that were not modifiable, and every entry is on record
with the object under whose hash it stands. -/
structure Recorded (pool : Pool kind α) (record : List (Handle kind × Except Error α)) : Prop where
  fixed : ∀ addition ∈ record, ∃ item, addition.2 = .ok item ∧ Poolable.modifiable item = false
  entries : ∀ entry ∈ pool.entries, ∃ item, (entry.handle, .ok item) ∈ record ∧
    entry.hash = pool.key.hash item

namespace Recorded

theorem empty (key : Key α) (ageLimit : Nat) :
    (Pool.empty key ageLimit : Pool kind α).Recorded [] where
  fixed _ member := absurd member List.not_mem_nil
  entries entry member := absurd member (Array.not_mem_empty entry)

theorem thins {pool' : Pool kind α} (recorded : pool.Recorded record) (thins : pool.Thins pool') :
    pool'.Recorded record where
  fixed := recorded.fixed
  entries entry member := by
    obtain ⟨i, found⟩ := Array.getElem?_of_mem member
    obtain ⟨j, old, there, handles, hashes⟩ := thins.entries i entry found
    rw [← handles, ← hashes, thins.key]
    exact recorded.entries old (Array.mem_of_getElem? there)

theorem push (recorded : pool.Recorded record) {item : α} (fixed : Poolable.modifiable item = false)
    (handle : Handle kind) :
    (pool.push handle (pool.key.hash item)).Recorded (record ++ [(handle, .ok item)]) := by
  constructor
  · intro addition member
    obtain before | now := List.mem_append.1 member
    · exact recorded.fixed addition before
    · cases List.mem_singleton.1 now
      exact ⟨item, rfl, fixed⟩
  · intro entry member
    obtain before | rfl := Array.mem_push.1 member
    · obtain ⟨stored, listed, hashed⟩ := recorded.entries entry before
      exact ⟨stored, List.mem_append_left _ listed, hashed⟩
    · exact ⟨item, List.mem_append_right _ List.mem_cons_self, rfl⟩

/-- An addition is written down if there is an entry more. -/
theorem admits {s s' : Stock kind α} {handle : Handle kind} (recorded : s.pool.Recorded record)
    (added : s' = s ∨ Stock.Adds handle s s') :
    s'.pool.Recorded (record ++
      if s.pool.entries.size < s'.pool.entries.size then [(handle, s.registry.get handle)]
      else []) := by
  obtain rfl | ⟨item, registry, got, fixed, _, rfl⟩ := added
  · rw [if_neg (Nat.lt_irrefl _), List.append_nil]
    exact recorded
  · have longer : s.pool.entries.size < (s.pool.push handle (s.pool.key.hash item)).entries.size :=
      Nat.lt_of_lt_of_eq (Nat.lt_succ_self _) (Array.size_push _).symm
    rw [if_pos longer, got]
    exact recorded.push fixed handle

theorem perform {s : Stock kind α} (recorded : s.pool.Recorded record) (call : StockCall kind α) :
    (call.perform s).state.pool.Recorded (record ++ call.admits s) := by
  have unlisted {act : Action (Stock kind α) Unit}
      (thins : act.Reaches s fun s' => s.pool.Thins s'.pool) :
      (act s).state.pool.Recorded (record ++ []) :=
    (List.append_nil record).symm ▸ recorded.thins (Action.reaches_iff.1 thins)
  have steady : Stock.Steady fun s' : Stock kind α => s.pool.Thins s'.pool :=
    Stock.steady_thins s.pool
  cases call with
  | add handle =>
    have added : (Stock.add handle).Reaches s fun s' => s' = s ∨ Stock.Adds handle s s' :=
      Stock.add_leads (.inl rfl) fun _ => .inr
    exact recorded.admits (Action.reaches_iff.1 added)
  | addIfNew handle =>
    have added : (Stock.addIfNew handle).Reaches s fun s' => s' = s ∨ Stock.Adds handle s s' :=
      Stock.addIfNew_leads (.inl rfl) fun _ _ => .inr
    exact recorded.admits (Action.reaches_iff.1 (Action.discard_reaches.2 added))
  | reserve additional =>
    exact unlisted ((Stock.reserve_pool additional).mono fun _ same => same ▸ .refl s.pool)
  | remove handle => exact unlisted (steady.remove (.refl s.pool) handle)
  | scan solution check =>
    exact unlisted (Action.discard_reaches.2 (steady.scan (.refl s.pool) solution check))
  | clear => exact unlisted (Stock.clear_pool.mono fun _ emptied => emptied ▸ .emptied rfl rfl)

end Recorded

theorem Filled.recorded (filled : pool.Filled record) : pool.Recorded record := by
  induction filled with
  | empty key ageLimit => exact .empty key ageLimit
  | step call registry _ ih => exact Recorded.perform (s := ⟨_, registry⟩) ih call

end Pool

/-- No object was modifiable when it was added to a pool. Adding a modifiable object is refused.
Adding it if it is new is refused exactly if the search goes past all entries under its hash; the
first entry that it does not go past is answered, unless the object of that entry is gone. Neither
changes anything. -/
theorem modifiable_unpooled [Poolable α] {pool : Pool kind α}
    {record : List (Handle kind × Except Error α)} (filled : pool.Filled record) :
    (∀ addition ∈ record, ∃ item, addition.2 = .ok item ∧ Poolable.modifiable item = false) ∧
    (∀ entry ∈ pool.entries, ∃ item, (entry.handle, .ok item) ∈ record ∧
      entry.hash = pool.key.hash item) ∧
    ∀ (registry : Registry kind α) (handle : Handle kind) (item : α),
      registry.get handle = .ok item → Poolable.modifiable item = true →
        let s : Stock kind α := ⟨pool, registry⟩
        Stock.add handle s = ⟨.error (.modifiable kind.text), s, []⟩ ∧
        (∃ reply, s.Replies handle item (pool.bucket (pool.key.hash item)) reply ∧
          Stock.addIfNew handle s = ⟨reply, s, []⟩) ∧
        ((Stock.addIfNew handle s).result = .error (.modifiable kind.text) ↔
          ∀ entry ∈ pool.entries, entry.hash = pool.key.hash item →
            s.Overlooks handle item entry) := by
  have recorded := filled.recorded
  have consistent : pool.Consistent := (Pool.reached_iff_filled.2 ⟨record, filled⟩).consistent
  refine ⟨recorded.fixed, recorded.entries, fun registry handle item got modifiable => ?_⟩
  intro s
  obtain ⟨reply, replies, added⟩ := Stock.addIfNew_modifiable (s := s) got modifiable
  refine ⟨Stock.add_modifiable got modifiable, ⟨reply, replies, added⟩, ?_⟩
  rw [added, replies.refused_iff]
  change (∀ entry ∈ pool.bucket (pool.key.hash item), _) ↔ _
  simp only [consistent.mem_bucket, and_imp]

/-- A row with these coefficients, of which some are modifiable. -/
def stockRow (name : String) (rhs : Float) (modifiable : Bool) : Row :=
  ⟨name, ⟨2, [(0, 1.0), (1, 2.0)]⟩, 0.0, rhs, modifiable⟩

/-- A row is added to a pool, beside which there are an equal row and another one that are
modifiable. -/
def modifiableRows : Registry .row Row :=
  ((((Registry.empty : Registry .row Row).insert (stockRow "a" 1.0 false)).2.insert
    (stockRow "b" 1.0 true)).2.insert (stockRow "c" 2.0 true)).2

def stockedRows : Stock .row Row :=
  ((StockCall.addIfNew ⟨0, 0⟩).perform ⟨Pool.empty (Row.key 1e-9) 3, modifiableRows⟩).state

/-- The modifiable row that is not equal to the stored one is refused either way. -/
theorem modifiable_unpooled_unequal : (∃ record, stockedRows.pool.Filled record) ∧
    Stock.add ⟨2, 0⟩ stockedRows = ⟨.error (.modifiable "row"), stockedRows, []⟩ ∧
    (Stock.addIfNew ⟨2, 0⟩ stockedRows).result = .error (.modifiable "row") := by
  have filled : stockedRows.pool.Filled _ :=
    (Pool.Filled.empty (Row.key 1e-9) 3).step (.addIfNew ⟨0, 0⟩) modifiableRows
  have got : stockedRows.registry.get ⟨2, 0⟩ = .ok (stockRow "c" 2.0 true) := by decide +kernel
  obtain ⟨added, _, refused⟩ :=
    (modifiable_unpooled filled).2.2 stockedRows.registry ⟨2, 0⟩ _ got rfl
  refine ⟨⟨_, filled⟩, added, refused.2 fun entry member _ => ?_⟩
  have handles : ∀ entry ∈ stockedRows.pool.entries, entry.handle = ⟨0, 0⟩ := by decide +kernel
  unfold Stock.Overlooks
  rw [handles entry member]
  exact ⟨by decide, stockRow "a" 1.0 false, by decide +kernel, by decide +kernel⟩

/-- The other one is not refused where it is to be added if it is new, as an equal row is
stored. -/
theorem modifiable_answered : (∃ record, stockedRows.pool.Filled record) ∧
    stockedRows.registry.get ⟨1, 0⟩ = .ok (stockRow "b" 1.0 true) ∧
    (Stock.add ⟨1, 0⟩ stockedRows).result = .error (.modifiable "row") ∧
    (Stock.addIfNew ⟨1, 0⟩ stockedRows).result = .ok (⟨0, 0⟩, true) :=
  ⟨⟨_, (Pool.Filled.empty (Row.key 1e-9) 3).step (.addIfNew ⟨0, 0⟩) modifiableRows⟩,
    by decide +kernel, by decide +kernel, by decide +kernel⟩

end BranchCutPrice
