import BranchCutPrice.Proofs.Asking
import BranchCutPrice.Proofs.Dating

/-!
When a scan has nothing to do. It compares the cursor with the number of entries and does not
look at them. No unchecked entry is ever passed over, but the cursor does not go forward if the
entry at it is taken out and a checked one takes its place, and then a scan may be run without
anything to check. But for such removals, a scan is run just when an entry is left to check.
-/

namespace BranchCutPrice

open BranchCutPrice.Action

variable {kind : Kind} {α : Type}

/-! ### Cursors -/

namespace Pool

/-- The cursor stands behind all entries or at one that is still to be checked. -/
structure AtUnchecked (pool : Pool kind α) : Prop where
  dated : ∃ now, pool.Dated now
  unchecked : ∀ (entry : PoolEntry kind) (last : Nat), pool.entries[pool.cursor]? = some entry →
    pool.processed = some last → entry.processed ≠ some last

variable {pool : Pool kind α} {position : Nat} {removed moved : PoolEntry kind}

/-- The cursor falls back to an unchecked entry that moves. -/
theorem cursor_detach (position : Nat) (removed : PoolEntry kind)
    (last : pool.entries[pool.entries.size - 1]? = some moved) :
    (pool.detach position removed).cursor =
      min (if position < pool.entries.size - 1 ∧ moved.processed ≠ pool.processed then
        min pool.cursor position else pool.cursor) (pool.entries.size - 1) := by
  by_cases inside : position < pool.entries.size - 1
  · by_cases checked : moved.processed = pool.processed
    · simp [detach, inside, last, checked]
    · simp [detach, inside, last, checked]
  · simp [detach, inside]

namespace AtUnchecked

theorem empty (key : Key α) (ageLimit : Nat) :
    (Pool.empty key ageLimit : Pool kind α).AtUnchecked where
  dated := ⟨0, .empty key ageLimit 0⟩
  unchecked _ _ _ processed := nomatch processed

theorem push (atUnchecked : pool.AtUnchecked) (handle : Handle kind) (hash : UInt64) :
    (pool.push handle hash).AtUnchecked := by
  obtain ⟨now, dated⟩ := atUnchecked.dated
  refine ⟨⟨now, dated.push handle hash⟩, fun entry last found processed => ?_⟩
  have there : (pool.push handle hash).entries[pool.cursor]? =
      if pool.cursor = pool.entries.size then some ⟨handle, 0, none, pool.entries.size, hash⟩
      else pool.entries[pool.cursor]? := Array.getElem?_push
  have found := there.symm.trans found
  split at found
  · cases found
    exact fun fresh => nomatch fresh
  · exact atUnchecked.unchecked entry last found processed

/-- No checked entry comes to stand at the cursor, unless it takes the place of the one there. -/
theorem detach (atUnchecked : pool.AtUnchecked) (found : pool.entries[position]? = some removed)
    (spares : position = pool.cursor → ∀ (moved : PoolEntry kind) (last : Nat),
      pool.entries[pool.entries.size - 1]? = some moved → pool.processed = some last →
        moved.processed ≠ some last) : (pool.detach position removed).AtUnchecked := by
  obtain ⟨now, dated⟩ := atUnchecked.dated
  refine ⟨⟨now, dated.detach found⟩, fun entry last there processed checked => ?_⟩
  have bound := (Array.getElem?_eq_some_iff.1 found).1
  obtain ⟨moved, behind⟩ : ∃ moved, pool.entries[pool.entries.size - 1]? = some moved :=
    ⟨_, Array.getElem?_eq_getElem (by omega)⟩
  have cursor := cursor_detach position removed behind
  rw [processed_detach] at processed
  rw [getElem?_detach found] at there
  split at there
  · cases there
  · split at there
    · -- the entry at the cursor is the one that moved
      rename_i before here
      rw [behind, Option.map_some, Option.some.injEq] at there
      have same : moved.processed = some last := by
        rw [← checked, ← there]
      rw [if_neg fun both => both.2 (same.trans processed.symm)] at cursor
      exact spares (by omega) moved last behind processed same
    · have stays : (pool.detach position removed).cursor = pool.cursor := by
        split at cursor <;> omega
      rw [stays] at there
      exact atUnchecked.unchecked entry last there processed checked

theorem emptied (pool : Pool kind α) :
    ({ pool with entries := #[], index := ∅, cursor := 0 } : Pool kind α).AtUnchecked := by
  refine ⟨⟨pool.processed.getD 0, .emptied pool, fun last processed => ?_,
    fun _ member => absurd member (Array.not_mem_empty _)⟩, fun _ _ found => nomatch found⟩
  have processed : pool.processed = some last := processed
  rw [processed]
  exact le_rfl

/-- Behind all entries, which were checked against the last solution. -/
theorem finished {solution : Nat} (consistent : pool.Consistent)
    (processed : pool.processed = some solution) (passed : pool.entries.size ≤ pool.cursor)
    (exhausted : pool.Exhausted solution) : pool.AtUnchecked := by
  refine ⟨⟨solution, consistent, fun last same => ?_, fun entry member checked same => ?_⟩,
    fun entry _ found => ?_⟩
  · cases processed.symm.trans same
    exact le_rfl
  · cases (exhausted entry member).symm.trans same
    exact ⟨solution, processed, le_rfl⟩
  · have bound := (Array.getElem?_eq_some_iff.1 found).1
    omega

end AtUnchecked

end Pool

namespace Stock

variable {s s' s'' : Stock kind α} {position solution : Nat}

/-- A cursor that can be relied on stands behind the entries just when all were checked. -/
theorem idle_iff (atUnchecked : s.pool.AtUnchecked)
    (recent : ∀ last, s.pool.processed = some last → last ≤ solution) :
    s.pool.entries.size ≤ (s.aimed solution).pool.cursor ↔ s.pool.Exhausted solution := by
  obtain ⟨now, dated⟩ := atUnchecked.dated
  constructor
  · intro idle entry member
    exact checked_of_idle dated.consistent idle member
  · intro exhausted
    by_contra busy
    have inside : (s.aimed solution).pool.cursor < s.pool.entries.size := Nat.lt_of_not_le busy
    have checked {i : Nat} (bound : i < s.pool.entries.size) :
        s.pool.entries[i].processed = some solution :=
      exhausted _ (Array.getElem_mem bound)
    -- some entry is there, so the last scan was for this very solution
    have first := Nat.zero_lt_of_lt inside
    obtain ⟨last, processed, behind⟩ :=
      dated.checked _ (Array.getElem_mem first) solution (checked first)
    obtain rfl : last = solution := Nat.le_antisymm (recent last processed) behind
    have cursor : (s.aimed last).pool.cursor = s.pool.cursor := if_pos processed
    rw [cursor] at inside
    exact atUnchecked.unchecked _ last (Array.getElem?_eq_getElem inside) processed (checked inside)

end Stock

/-! ### Objects that are gone -/

namespace Registry

/-- Whatever is registered has users. -/
def Used (registry : Registry kind α) : Prop :=
  ∀ handle object, registry.table.get? handle = some object → 0 < object.uses

variable {registry registry' : Registry kind α} {handle : Handle kind}

theorem Used.users_pos (used : registry.Used) {item : α} (got : registry.get handle = .ok item) :
    0 < registry.users handle := by
  obtain ⟨object, found⟩ := SlotTable.contains_iff.1 (contains_iff_get.2 ⟨item, got⟩)
  rw [users_of_found found]
  exact used handle object found

theorem Within.gone (within : registry'.Within registry)
    (gone : registry.contains handle = false) : registry'.contains handle = false := by
  rw [← Bool.not_eq_true, contains_iff_get] at gone ⊢
  rintro ⟨item, got⟩
  exact gone ⟨item, within handle item got⟩

theorem Used.capture (used : registry.Used) (captured : registry.capture handle = .ok registry') :
    registry'.Used := by
  obtain ⟨object, found, rfl⟩ := capture_ok captured
  intro other shared there
  have changed := SlotTable.get?_set found { object with uses := object.uses + 1 } other
  rw [changed] at there
  split at there
  · cases there
    exact Nat.succ_pos _
  · exact used other shared there

theorem Used.release (used : registry.Used) {freed : Option α}
    (released : registry.release handle = .ok (freed, registry')) : registry'.Used := by
  obtain ⟨object, found, ⟨_, _, rfl⟩ | ⟨several, _, rfl⟩⟩ := release_ok released
  · intro other shared there
    rw [SlotTable.get?_erase] at there
    split at there
    · cases there
    · exact used other shared there
  · intro other shared there
    have changed := SlotTable.get?_set found { object with uses := object.uses - 1 } other
    rw [changed] at there
    split at there
    · cases there
      exact Nat.sub_pos_of_lt several
    · exact used other shared there

end Registry

namespace Stock

variable {s s' s'' : Stock kind α} {position solution : Nat}

/-- Nothing was registered in between, and what is left has users. -/
structure NothingRegistered (s s' : Stock kind α) : Prop where
  within : s'.registry.Within s.registry
  used : s.registry.Used → s'.registry.Used

instance : Std.Refl (@NothingRegistered kind α) where
  refl _ := ⟨.rfl, id⟩

instance : IsTrans (Stock kind α) NothingRegistered where
  trans _ _ _ first second := ⟨second.within.trans first.within, second.used ∘ first.used⟩

theorem release_nothingRegistered (handle : Handle kind) :
    (release handle : Action (Stock kind α) Unit).Respects NothingRegistered := by
  apply respects_change
  intro s s' changed
  cases released : s.registry.release handle with
  | error e => simp [released, bind, Except.bind] at changed
  | ok outcome =>
    simp only [released, bind, Except.bind] at changed
    cases changed
    exact ⟨Registry.within_release released, fun used => used.release released⟩

theorem modifyPool_nothingRegistered (f : Pool kind α → Pool kind α) :
    (modifyPool f : Action (Stock kind α) Unit).Respects NothingRegistered :=
  respects_modify fun _ => ⟨.rfl, id⟩

theorem removeAt_nothingRegistered (position : Nat) :
    (removeAt position : Action (Stock kind α) Unit).Respects NothingRegistered := by
  apply respects_get.bind
  intro s
  cases s.pool.entries[position]? with
  | none => exact respects_pure ()
  | some entry =>
    exact (modifyPool_nothingRegistered _).bind fun _ => release_nothingRegistered entry.handle

theorem reserve_nothingRegistered (additional : Nat) :
    (reserve additional : Action (Stock kind α) Unit).Respects NothingRegistered := by
  apply respects_change
  intro s s' changed
  unfold Pool.reserve at changed
  split at changed
  · cases changed
    exact ⟨.rfl, id⟩
  · cases changed

theorem add_nothingRegistered [Poolable α] (handle : Handle kind) :
    (add handle : Action (Stock kind α) Unit).Respects NothingRegistered := by
  intro s
  apply add_leads (refl_of NothingRegistered s)
  rintro _ ⟨_, _, _, _, captured, rfl⟩
  exact ⟨Registry.within_capture captured, fun used => used.capture captured⟩

theorem addIfNew_nothingRegistered [Poolable α] (handle : Handle kind) :
    (addIfNew handle : Action (Stock kind α) (Handle kind × Bool)).Respects NothingRegistered := by
  apply (respects_read _).bind
  intro stored
  cases stored with
  | some entry => exact respects_pure _
  | none => exact (add_nothingRegistered handle).bind fun _ => respects_pure _

theorem remove_nothingRegistered [Poolable α] (handle : Handle kind) :
    (remove handle : Action (Stock kind α) Unit).Respects NothingRegistered := by
  apply (respects_read _).bind
  intro found
  cases found with
  | some position => exact removeAt_nothingRegistered position
  | none => exact (respects_read _).bind fun _ => respects_throw _

theorem clear_nothingRegistered :
    (clear : Action (Stock kind α) Unit).Respects NothingRegistered := by
  have released (entry : PoolEntry kind) :
      (release entry.handle : Action (Stock kind α) Unit).Respects NothingRegistered :=
    release_nothingRegistered entry.handle
  exact respects_get.bind fun s => (modifyPool_nothingRegistered _).bind fun _ =>
    Respects.forM released s.pool.entries.toList

theorem steady_nothingRegistered (s : Stock kind α) : Steady (NothingRegistered s) where
  amend _ _ _ _ _ kept := ⟨kept.within, kept.used⟩
  note _ _ _ _ kept := ⟨kept.within, kept.used⟩
  removeAt _ position kept := (removeAt_nothingRegistered position).after kept

theorem perform_nothingRegistered [Poolable α] (call : StockCall kind α) :
    call.perform.Respects NothingRegistered := by
  cases call with
  | reserve additional => exact reserve_nothingRegistered additional
  | add handle => exact add_nothingRegistered handle
  | addIfNew handle => exact (addIfNew_nothingRegistered handle).discard
  | remove handle => exact remove_nothingRegistered handle
  | scan solution check =>
    intro s
    exact discard_reaches.2
      ((steady_nothingRegistered s).scan (refl_of NothingRegistered s) solution check)
  | clear => exact clear_nothingRegistered

/-- An entry whose object is gone. -/
def StoresStale (s : Stock kind α) : Prop :=
  ∃ handle ∈ s.pool.handles, s.registry.contains handle = false

theorem StoresStale.still (stale : s.StoresStale) (within : s'.registry.Within s.registry)
    (stored : ∀ handle ∈ s.pool.handles, s.registry.contains handle = false →
      handle ∈ s'.pool.handles) : s'.StoresStale := by
  obtain ⟨handle, member, gone⟩ := stale
  exact ⟨handle, stored handle member gone, within.gone gone⟩

/-- Only an object that is gone stops an examination. -/
theorem examine_refused {check : Handle kind → α → Verdict} {entry : PoolEntry kind}
    (found : s.pool.entries[position]? = some entry) (used : s.registry.Used) :
    (examine solution check position).Ensures s (fun _ _ => True) (fun _ s' => s'.StoresStale) := by
  have here := entry_marked found solution
  apply ensures_examine found
  · intro _
    trivial
  · intro _ e stale
    have stored : ({ entry with processed := some solution } : PoolEntry kind).handle ∈
        (s.marked solution position).pool.handles := handle_mem here
    refine ⟨entry.handle, stored, Bool.eq_false_iff.2 fun live => ?_⟩
    obtain ⟨item, got⟩ := Registry.contains_iff_get.1 live
    cases stale.symm.trans got
  · intro _ item got
    cases check entry.handle item with
    | loaded => trivial
    | useful score => trivial
    | useless =>
      have grows := grow_inspects here rfl (used.users_pos got) (Pool.records_detach here)
      exact Completes.leads grows fun _ _ _ => trivial

theorem examineFrom_refused (check : Check kind α) (remaining asked : Nat)
    (scanning : Scanning s.pool solution position)
    (rest : position + remaining = s.pool.entries.size) (used : s.registry.Used) :
    (examineFrom solution check remaining asked position).Ensures s (fun _ _ => True)
      (fun _ s' => s'.StoresStale) := by
  induction remaining generalizing s asked position with
  | zero => trivial
  | succ remaining ih =>
    obtain ⟨entry, found⟩ : ∃ entry, s.pool.entries[position]? = some entry :=
      ⟨_, Array.getElem?_eq_getElem (by omega)⟩
    have kept : (examine solution (check asked) position).Reaches s (NothingRegistered s) :=
      (steady_nothingRegistered s).examine (refl_of NothingRegistered s) solution _ position
    unfold examineFrom
    rw [ensures_bind]
    apply (((examine_scanning scanning (check asked) (by omega)).and kept).and
      (examine_refused found used)).imp
    · rintro next s' ⟨⟨⟨further, count⟩, kept⟩, _⟩
      rw [ensures_bind]
      apply (ih _ further (by omega) (kept.used used)).imp
      · intro _ _ _
        trivial
      · intro _ _ stale
        exact stale
    · intro _ _ refused
      exact refused.2

/-! ### Calls -/

/-- The entry at the cursor is the one to be taken out, and the last entry was checked. -/
def MovesCheckedToCursor (s : Stock kind α) (handle : Handle kind) : Prop :=
  s.pool.find s.registry handle = .ok (some s.pool.cursor) ∧
    ∃ (entry : PoolEntry kind) (last : Nat),
      s.pool.entries[s.pool.entries.size - 1]? = some entry ∧
        s.pool.processed = some last ∧ entry.processed = some last

/-- A stock whose cursor can be relied on, unless it has lost an object. -/
structure ReliableUnlessStale (s : Stock kind α) : Prop where
  consistent : s.pool.Consistent
  used : s.registry.Used
  atUnchecked : s.pool.AtUnchecked ∨ s.StoresStale

section Changes

variable (atUnchecked : s.pool.AtUnchecked ∨ s.StoresStale) (kept : NothingRegistered s s')
include atUnchecked kept

theorem atUnchecked_of_added
    (added : s'.pool = s.pool ∨ ∃ handle hash, s'.pool = s.pool.push handle hash) :
    s'.pool.AtUnchecked ∨ s'.StoresStale := by
  obtain same | ⟨handle, hash, pushed⟩ := added
  · exact atUnchecked.imp (fun atUnchecked => same ▸ atUnchecked) fun stale =>
      stale.still kept.within fun _ member _ => same ▸ member
  · refine atUnchecked.imp (fun atUnchecked => pushed ▸ atUnchecked.push handle hash)
      fun stale => stale.still kept.within fun other member _ => ?_
    rw [pushed, Pool.handles_push]
    exact Multiset.mem_cons_of_mem member

/-- What is found can be taken out, so an entry without an object stays. -/
theorem atUnchecked_of_removed {handle : Handle kind} {entry : PoolEntry kind}
    (spares : ¬s.MovesCheckedToCursor handle)
    (found : s.pool.find s.registry handle = .ok (some position))
    (there : s.pool.entries[position]? = some entry)
    (detached : s'.pool = s.pool.detach position entry) :
    s'.pool.AtUnchecked ∨ s'.StoresStale := by
  obtain ⟨entry', there', item, got⟩ := Pool.find_inside found
  obtain rfl : entry = entry' := Option.some.inj (there.symm.trans there')
  refine atUnchecked.imp (fun atUnchecked => ?_) fun stale => stale.still kept.within ?_
  · rw [detached]
    refine atUnchecked.detach there fun here moved last behind processed checked => ?_
    exact spares ⟨here ▸ found, moved, last, behind, processed, checked⟩
  · intro other member gone
    rw [← Pool.handles_detach there] at member
    rw [detached]
    obtain rfl | member := Multiset.mem_cons.1 member
    · rw [Registry.contains_iff_get.2 ⟨item, got⟩] at gone
      cases gone
    · exact member

end Changes

/-- A scan that ends leaves nothing unchecked behind, and one that is refused an object that is
gone. -/
theorem scan_atUnchecked (reliable : s.ReliableUnlessStale) (solution : Nat)
    (check : Check kind α) :
    (scan solution check).Reaches s fun s' => s'.pool.AtUnchecked ∨ s'.StoresStale := by
  have consistent := reliable.consistent
  have scanning := scanning_of_consistent consistent solution
  apply ensures_scan
  · intro _ _ _ _
    exact reliable.atUnchecked
  · intro _ idle
    left
    have exhausted : s.pool.Exhausted solution := fun _ => checked_of_idle consistent idle
    have consistent' : ({ (s.aimed solution).pool with processed := some solution } :
        Pool kind α).Consistent :=
      ⟨consistent.positions, consistent.trim, consistent.once, scanning.consistent.cursor,
        fun _ _ _ found => exhausted _ (Array.mem_of_getElem? found)⟩
    exact .finished consistent' rfl idle exhausted
  · intro _ _
    have counted : Scanning (s.aimed solution).counted.pool solution
        (s.aimed solution).pool.cursor := scanning.stats _
    have rest := Nat.add_sub_cancel' scanning.consistent.cursor
    have used : (s.aimed solution).counted.registry.Used := reliable.used
    apply ensures_survey.2
    apply ((examineFrom_scanning check _ 0 counted rest).and
      (examineFrom_refused check _ 0 counted rest used)).imp
    · rintro verdicts s' ⟨swept, _⟩
      left
      refine .finished (swept.consistent.finish solution _ fun i entry found => ?_) rfl le_rfl
        fun _ => swept.checked
      exact swept.checked (Array.mem_of_getElem? found)
    · intro _ _ refused
      exact .inr refused.2

variable [Poolable α]

theorem perform_atUnchecked (call : StockCall kind α) (reliable : s.ReliableUnlessStale)
    (spares : ∀ handle, call = .remove handle → ¬s.MovesCheckedToCursor handle) :
    call.perform.Reaches s fun s' =>
      NothingRegistered s s' → s'.pool.AtUnchecked ∨ s'.StoresStale := by
  cases call with
  | reserve additional =>
    have same (s' : Stock kind α) (same : s'.pool = s.pool) (kept : NothingRegistered s s') :
        s'.pool.AtUnchecked ∨ s'.StoresStale :=
      atUnchecked_of_added reliable.atUnchecked kept (.inl same)
    exact (reserve_pool additional).mono same
  | add handle =>
    exact (add_pool handle).mono fun _ added kept =>
      atUnchecked_of_added reliable.atUnchecked kept
        (added.imp_right fun pushed => ⟨handle, pushed⟩)
  | addIfNew handle =>
    exact discard_reaches.2 ((addIfNew_pool handle).mono fun _ added kept =>
      atUnchecked_of_added reliable.atUnchecked kept
        (added.imp_right fun pushed => ⟨handle, pushed⟩))
  | remove handle =>
    apply (remove_pool handle).mono
    rintro s' (⟨position, entry, found, there, detached⟩ | ⟨_, same⟩) kept
    · exact atUnchecked_of_removed reliable.atUnchecked kept (spares handle rfl) found there
        detached
    · exact atUnchecked_of_added reliable.atUnchecked kept (.inl same)
  | scan solution check =>
    have scanned := scan_atUnchecked reliable solution check
    exact discard_reaches.2 (scanned.mono fun _ atUnchecked _ => atUnchecked)
  | clear =>
    apply clear_pool.mono
    intro s' emptied _
    left
    rw [emptied]
    exact .emptied s.pool

theorem perform_reliable (call : StockCall kind α) (reliable : s.ReliableUnlessStale)
    (spares : ∀ handle, call = .remove handle → ¬s.MovesCheckedToCursor handle) :
    (call.perform s).state.ReliableUnlessStale := by
  have kept := reaches_iff.1 (perform_nothingRegistered call s)
  have consistent := reaches_iff.1 (call.perform_consistent reliable.consistent)
  have atUnchecked := reaches_iff.1 (perform_atUnchecked call reliable spares)
  exact ⟨consistent, kept.used reliable.used, atUnchecked kept⟩

/-- A stock that was used from an empty pool on, without a removal that moves a checked entry to
the cursor. Elsewhere objects come and go, but what is gone does not come back. -/
inductive ReachedSparingCursor : Stock kind α → Prop where
  | fresh (key : Key α) (ageLimit : Nat) {registry : Registry kind α} (used : registry.Used) :
      ReachedSparingCursor ⟨.empty key ageLimit, registry⟩
  | call {s : Stock kind α} (sparing : ReachedSparingCursor s) (call : StockCall kind α)
      (spares : ∀ handle, call = .remove handle → ¬s.MovesCheckedToCursor handle) :
      ReachedSparingCursor (call.perform s).state
  | elsewhere {s : Stock kind α} (sparing : ReachedSparingCursor s) {registry : Registry kind α}
      (used : registry.Used)
      (gone : ∀ handle ∈ s.pool.handles, s.registry.contains handle = false →
        registry.contains handle = false) : ReachedSparingCursor ⟨s.pool, registry⟩

theorem ReachedSparingCursor.reliable (sparing : s.ReachedSparingCursor) :
    s.ReliableUnlessStale := by
  induction sparing with
  | fresh key ageLimit used => exact ⟨.empty key ageLimit, used, .inl (.empty key ageLimit)⟩
  | call sparing call spares reliable => exact perform_reliable call reliable spares
  | elsewhere sparing used gone reliable =>
    refine ⟨reliable.consistent, used, reliable.atUnchecked.imp id fun stale => ?_⟩
    obtain ⟨handle, member, lost⟩ := stale
    exact ⟨handle, member, gone handle member lost⟩

theorem ReachedSparingCursor.reached (sparing : s.ReachedSparingCursor) : s.pool.Reached := by
  induction sparing with
  | fresh key ageLimit _ => exact ⟨key, ageLimit, .refl⟩
  | @call s _ call _ reached =>
    obtain ⟨key, ageLimit, calls⟩ := reached
    exact ⟨key, ageLimit, calls.tail ⟨call, s.registry, rfl⟩⟩
  | elsewhere _ _ _ reached => exact reached

/-- With all objects still there the cursor can be relied on. -/
theorem ReachedSparingCursor.atUnchecked (sparing : s.ReachedSparingCursor) (live : s.Live) :
    s.pool.AtUnchecked := by
  obtain atUnchecked | ⟨handle, member, gone⟩ := sparing.reliable.atUnchecked
  · exact atUnchecked
  · cases (live handle member).symm.trans gone

end Stock

/-- A scan that says that nothing was left to check is right, and counts nothing. Any other one
counts one call. A scan that ends asks about each unchecked entry once, and counts just that; if
all objects are there, the check counter goes up just when something was asked. A scan that asks
nothing had nothing left, but it may fail to say so. It says so whenever it is true if all
objects are there and no removal has moved a checked entry to the cursor. -/
theorem scan_counted_iff [Poolable α] {s : Stock kind α} (reached : s.pool.Reached)
    {solution : Nat} (recent : ∀ last, s.pool.processed = some last → last ≤ solution)
    (check : Check kind α) :
    let stats := ((Stock.scan solution check) s).state.pool.stats
    (s.Rests solution check → s.pool.Exhausted solution ∧ stats = s.pool.stats) ∧
      (¬s.Rests solution check → stats.calls = s.pool.stats.calls + 1 ∧
        (s.pool.stats.checks < stats.checks ∨ s.pool.Exhausted solution)) ∧
      (∀ survey, ((Stock.scan solution check) s).result = .ok survey →
        s.Answered solution check survey.verdicts ∧
          stats.checks = s.pool.stats.checks + survey.verdicts.length) ∧
      (s.Asks solution check →
        stats.calls = s.pool.stats.calls + 1 ∧ ¬s.pool.Exhausted solution) ∧
      (s.Live →
        (s.Asks solution check ↔ s.pool.stats.checks < stats.checks) ∧
          (¬s.Asks solution check → s.pool.Exhausted solution) ∧
          (s.ReachedSparingCursor →
            (s.Rests solution check ↔ s.pool.Exhausted solution) ∧
              (stats.calls = s.pool.stats.calls + 1 ↔ s.Asks solution check))) := by
  have consistent := reached.consistent
  have outcome := Stock.rests_or_counts consistent recent check
  have asks := Stock.not_exhausted_of_asks consistent recent check
  intro stats
  have counts (runs : ¬s.Rests solution check) : stats.calls = s.pool.stats.calls + 1 := by
    obtain ⟨rests, _⟩ | ⟨_, _, calls⟩ := outcome
    · exact absurd rests runs
    · exact calls
  have rests (rests : s.Rests solution check) :
      s.pool.Exhausted solution ∧ stats = s.pool.stats := by
    obtain ⟨_, nothing⟩ | ⟨_, runs, _⟩ := outcome
    · exact nothing
    · exact absurd rests runs
  refine ⟨rests, fun runs => ⟨counts runs, Stock.checks_or_exhausted consistent recent check⟩,
    fun survey ended => Stock.answered_of_ok consistent recent check ended,
    fun asked => ⟨counts fun resting => asks asked (rests resting).1, asks asked⟩, fun live => ?_⟩
  have asked := Stock.asks_iff consistent recent check live
  refine ⟨(Stock.checks_lt_iff consistent recent check live).symm,
    fun silent => not_not.1 (silent ∘ asked.2), fun sparing => ?_⟩
  obtain ⟨resting, exhausted, same⟩ | ⟨busy, runs, calls⟩ := outcome
  · have uncounted : ¬stats.calls = s.pool.stats.calls + 1 := by
      rw [show stats = s.pool.stats from same]
      exact (Nat.lt_succ_self _).ne
    exact ⟨iff_of_true resting exhausted,
      iff_of_false uncounted fun asked => asks asked exhausted⟩
  · -- with a cursor that can be relied on, a scan is run for something
    have fresh : ¬s.pool.Exhausted solution := fun exhausted =>
      Nat.not_le_of_lt busy ((Stock.idle_iff (sparing.atUnchecked live) recent).2 exhausted)
    exact ⟨iff_of_false runs fresh, iff_of_true calls (asked.2 fresh)⟩

/-- Three rows, of which the last one is new when the first one is taken out. It is moved to the
front, before a row that was checked, and the next scan asks about it alone. -/
theorem scan_counted_iff_moved :
    let row (name : String) (rhs : Float) : Row := ⟨name, ⟨1, []⟩, 0, rhs, false⟩
    let rows := (((Registry.empty.insert (row "a" 1)).2.insert (row "b" 2)).2.insert
      (row "c" 3)).2
    let check (asked : Nat) (_ : Handle .row) (_ : Row) : Verdict :=
      if asked = 0 then .loaded else .useless
    let fresh : Stock .row Row := ⟨.empty (Row.key 0) 5, rows⟩
    let run (s : Stock .row Row) (call : StockCall .row Row) := (call.perform s).state
    let checked := run (run (run fresh (.add ⟨0, 0⟩)) (.add ⟨1, 0⟩)) (.scan 1 check)
    let s := run (run checked (.add ⟨2, 0⟩)) (.remove ⟨0, 0⟩)
    s.pool.entries.toList.map PoolEntry.processed = [none, some 1] ∧
      ((Stock.scan 1 check) s).result = .ok ⟨.nothing, [(⟨2, 0⟩, .loaded)]⟩ ∧
      s.Answered 1 check [(⟨2, 0⟩, .loaded)] ∧ s.Asks 1 check ∧ ¬s.Rests 1 check ∧
      ((Stock.scan 1 check) s).state.pool.stats.calls = s.pool.stats.calls + 1 ∧
      ((Stock.scan 1 check) s).state.pool.stats.checks = s.pool.stats.checks + 1 := by
  intro row rows check fresh run checked s
  have balanced : rows.Balanced _ :=
    ((Registry.balanced_empty.insert (row "a" 1) (SlotTable.Roomy.fits (by decide))).insert
      (row "b" 2) (SlotTable.Roomy.fits (by decide))).insert (row "c" 3)
        (SlotTable.Roomy.fits (by decide))
  have start : fresh.ReachedSparingCursor := .fresh _ _ balanced.used
  have sparing : s.ReachedSparingCursor := by
    have scanned : checked.ReachedSparingCursor :=
      ((start.call (.add ⟨0, 0⟩) (fun _ same => nomatch same)).call (.add ⟨1, 0⟩)
        (fun _ same => nomatch same)).call (.scan 1 check) (fun _ same => nomatch same)
    apply (scanned.call (.add ⟨2, 0⟩) fun _ same => nomatch same).call (.remove ⟨0, 0⟩)
    rintro _ ⟨⟩ ⟨found, _⟩
    revert found
    decide
  have processed : s.pool.processed = some 1 := by decide
  have recent (last : Nat) (same : s.pool.processed = some last) : last ≤ 1 :=
    (Option.some.inj (processed.symm.trans same)).ge
  obtain ⟨_, _, ends, counts, settled⟩ := scan_counted_iff sparing.reached recent check
  obtain ⟨_, asks, settled⟩ := settled (by decide)
  obtain ⟨rests, _⟩ := settled sparing
  have fresh : ¬s.pool.Exhausted 1 := by decide
  have asked : s.Asks 1 check := not_not.1 fun silent => fresh (asks silent)
  have ended : ((Stock.scan 1 check) s).result = .ok ⟨.nothing, [(⟨2, 0⟩, .loaded)]⟩ := by decide
  obtain ⟨answered, checks⟩ := ends _ ended
  exact ⟨by decide, ended, answered, asked, fun idle => fresh (rests.1 idle), (counts asked).1,
    checks⟩

/-- The new row is moved to the front, and then taken out as well. What is left was checked, but
the next scan is run. -/
theorem scan_run_vainly :
    let row (name : String) (rhs : Float) : Row := ⟨name, ⟨1, []⟩, 0, rhs, false⟩
    let rows := (((Registry.empty.insert (row "a" 1)).2.insert (row "b" 2)).2.insert
      (row "c" 3)).2
    let check (_ : Nat) (_ : Handle .row) (_ : Row) : Verdict := .loaded
    let fresh : Pool .row Row := .empty (Row.key 0) 5
    let pool := fresh.after [(.add ⟨0, 0⟩, rows), (.add ⟨1, 0⟩, rows), (.scan 1 check, rows),
      (.add ⟨2, 0⟩, rows), (.remove ⟨0, 0⟩, rows), (.remove ⟨2, 0⟩, rows)]
    let scanned := (Stock.scan 1 check) ⟨pool, rows⟩
    pool.Reached ∧ (∀ handle ∈ pool.handles, rows.contains handle = true) ∧
      pool.processed = some 1 ∧ pool.Exhausted 1 ∧ scanned.result = .ok ⟨.nothing, []⟩ ∧
      scanned.state.pool.stats = { pool.stats with calls := pool.stats.calls + 1 } := by
  intro row rows check fresh pool scanned
  refine ⟨Pool.after_reached _ _ _, ?_⟩
  decide

end BranchCutPrice
