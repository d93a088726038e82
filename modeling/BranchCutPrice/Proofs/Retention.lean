import BranchCutPrice.Proofs.PoolRuns

/-!
What pools retain. Captures and releases leave all other objects as they are, so that the
operations that take entries out of a pool leave the objects of the others as they were.
-/

namespace BranchCutPrice

variable {kind : Kind} {α : Type}

/-! ### Captures and releases -/

namespace Registry

variable {registry registry' : Registry kind α} {handle : Handle kind}

theorem get_capture (captured : registry.capture handle = .ok registry')
    (other : Handle kind) : registry'.get other = registry.get other ∧
      registry'.users other = registry.users other + if other = handle then 1 else 0 := by
  obtain ⟨object, found, rfl⟩ := capture_ok captured
  rw [get_set found, users_set found]
  by_cases same : other = handle
  · rw [if_pos same, if_pos same, if_pos same, same, get_named found, users_of_found found]
    exact ⟨rfl, rfl⟩
  · rw [if_neg same, if_neg same, if_neg same]
    exact ⟨rfl, rfl⟩

theorem capture_of_get {item : α} (got : registry.get handle = .ok item) :
    ∃ registry', registry.capture handle = .ok registry' :=
  capture_live (contains_iff_get.2 ⟨item, got⟩)

theorem get_release {freed : Option α} (released : registry.release handle = .ok (freed, registry'))
    {other : Handle kind} (different : other ≠ handle) :
    registry'.get other = registry.get other := by
  obtain ⟨object, found, ⟨_, _, rfl⟩ | ⟨_, _, rfl⟩⟩ := release_ok released
  · rw [get_erase, if_neg different]
  · rw [get_set found, if_neg different]

/-- An object that stays when it is released is as it was. -/
theorem get_release_live {freed : Option α}
    (released : registry.release handle = .ok (freed, registry'))
    (live : registry'.contains handle = true) : registry'.get handle = registry.get handle := by
  obtain ⟨object, found, ⟨_, _, rfl⟩ | ⟨_, _, rfl⟩⟩ := release_ok released
  · obtain ⟨item, got⟩ := contains_iff_get.1 live
    rw [get_erase, if_pos rfl] at got
    cases got
  · rw [get_set found, if_pos rfl, get_named found]

end Registry

/-! ### Entries that stay -/

/-- Some entries may have left, and the others may have been marked and moved. -/
structure Pool.Thins (pool pool' : Pool kind α) : Prop where
  key : pool'.key = pool.key
  entries : ∀ (i : Nat) (entry : PoolEntry kind), pool'.entries[i]? = some entry →
    ∃ (j : Nat) (old : PoolEntry kind), pool.entries[j]? = some old ∧
      old.handle = entry.handle ∧ old.hash = entry.hash

namespace Pool.Thins

variable {pool pool' pool'' : Pool kind α}

theorem refl (pool : Pool kind α) : pool.Thins pool :=
  ⟨rfl, fun i entry found => ⟨i, entry, found, rfl, rfl⟩⟩

theorem trans (first : pool.Thins pool') (second : pool'.Thins pool'') : pool.Thins pool'' where
  key := second.key.trans first.key
  entries i entry found := by
    obtain ⟨j, old, there, handles, hashes⟩ := second.entries i entry found
    obtain ⟨k, older, before, handles', hashes'⟩ := first.entries j old there
    exact ⟨k, older, before, handles'.trans handles, hashes'.trans hashes⟩

/-- The statistics, the cursor and the checks do not matter. -/
theorem same (key : pool'.key = pool.key) (entries : pool'.entries = pool.entries) :
    pool.Thins pool' :=
  ⟨key, fun i entry found => ⟨i, entry, (congrArg (·[i]?) entries).symm.trans found, rfl, rfl⟩⟩

theorem emptied (key : pool'.key = pool.key) (entries : pool'.entries = #[]) :
    pool.Thins pool' := by
  refine ⟨key, fun i entry found => ?_⟩
  rw [entries, Array.getElem?_empty] at found
  cases found

theorem amend (pool : Pool kind α) (position : Nat) {f : PoolEntry kind → PoolEntry kind}
    (handles : ∀ entry, (f entry).handle = entry.handle)
    (hashes : ∀ entry, (f entry).hash = entry.hash) : pool.Thins (pool.amend position f) := by
  refine ⟨rfl, fun i entry found => ?_⟩
  rw [getElem?_amend] at found
  split at found
  · obtain ⟨old, there, rfl⟩ := Option.map_eq_some_iff.1 found
    exact ⟨i, old, there, (handles old).symm, (hashes old).symm⟩
  · exact ⟨i, entry, found, rfl, rfl⟩

theorem detach {position : Nat} {removed : PoolEntry kind}
    (found : pool.entries[position]? = some removed) :
    pool.Thins (pool.detach position removed) := by
  refine ⟨key_detach pool position removed, fun i entry there => ?_⟩
  rw [getElem?_detach found] at there
  split at there
  · cases there
  · split at there
    · obtain ⟨moved, last, rfl⟩ := Option.map_eq_some_iff.1 there
      exact ⟨_, moved, last, rfl, rfl⟩
    · exact ⟨i, entry, there, rfl, rfl⟩

end Pool.Thins

namespace Stock

open BranchCutPrice.Action Pool

/-- Some entries may have left, and the objects of the others are as they were. -/
structure Retains (s s' : Stock kind α) : Prop where
  key : s'.pool.key = s.pool.key
  handles : s'.pool.handles ≤ s.pool.handles
  entries : ∀ (i : Nat) (entry : PoolEntry kind), s'.pool.entries[i]? = some entry →
    ∃ (j : Nat) (old : PoolEntry kind), s.pool.entries[j]? = some old ∧
      old.handle = entry.handle ∧ old.hash = entry.hash
  items : ∀ handle ∈ s'.pool.handles, s'.registry.get handle = s.registry.get handle

variable {s s' s'' : Stock kind α}

namespace Retains

theorem thins (retains : s.Retains s') : s.pool.Thins s'.pool :=
  ⟨retains.key, retains.entries⟩

theorem of_thins (thins : s.pool.Thins s'.pool) (handles : s'.pool.handles ≤ s.pool.handles)
    (items : ∀ handle ∈ s'.pool.handles, s'.registry.get handle = s.registry.get handle) :
    s.Retains s' :=
  ⟨thins.key, handles, thins.entries, items⟩

theorem refl (s : Stock kind α) : s.Retains s :=
  .of_thins (.refl s.pool) (le_refl _) fun _ _ => rfl

theorem trans (first : s.Retains s') (second : s'.Retains s'') : s.Retains s'' := by
  apply of_thins (first.thins.trans second.thins) (second.handles.trans first.handles)
  intro handle member
  exact (second.items handle member).trans
    (first.items handle (Multiset.mem_of_le second.handles member))

theorem same {pool : Pool kind α} (key : pool.key = s.pool.key)
    (entries : pool.entries = s.pool.entries) : s.Retains ⟨pool, s.registry⟩ := by
  have handles : pool.handles = s.pool.handles := by
    unfold Pool.handles
    rw [entries]
  exact .of_thins (.same key entries) handles.le fun _ _ => rfl

theorem amend (s : Stock kind α) (position : Nat) {f : PoolEntry kind → PoolEntry kind}
    (handles : ∀ entry, (f entry).handle = entry.handle)
    (hashes : ∀ entry, (f entry).hash = entry.hash) :
    s.Retains ⟨s.pool.amend position f, s.registry⟩ :=
  .of_thins (.amend s.pool position handles hashes) (handles_modify s.pool f handles).le
    fun _ _ => rfl

theorem nodup (retains : s.Retains s') (distinct : s.pool.handles.Nodup) :
    s'.pool.handles.Nodup :=
  Multiset.nodup_of_le retains.handles distinct

end Retains

theorem handle_mem {pool : Pool kind α} {i : Nat} {entry : PoolEntry kind}
    (found : pool.entries[i]? = some entry) : entry.handle ∈ pool.handles :=
  mem_handles.2 ⟨entry, Array.mem_of_getElem? found, rfl⟩

/-- An object that is stored once is not needed by other entries, so that it may be freed
when its entry leaves. -/
theorem retains_detach {position : Nat} {removed : PoolEntry kind}
    {registry : Registry kind α} (distinct : s.pool.handles.Nodup)
    (found : s.pool.entries[position]? = some removed)
    (elsewhere : ∀ other, other ≠ removed.handle →
      registry.get other = s.registry.get other) :
    s.Retains ⟨s.pool.detach position removed, registry⟩ := by
  have handles := handles_detach found
  refine .of_thins (.detach found) ?_ fun handle member => ?_
  · rw [← handles]
    exact Multiset.le_cons_self _ _
  · apply elsewhere
    rintro rfl
    rw [← handles] at distinct
    exact (Multiset.nodup_cons.1 distinct).1 member

theorem removeAt_retains (distinct : s.pool.handles.Nodup) (position : Nat) :
    (removeAt position).Reaches s s.Retains := by
  unfold Reaches removeAt
  rw [ensures_bind, ensures_get]
  cases found : s.pool.entries[position]? with
  | none => exact .refl s
  | some entry =>
    rw [ensures_bind, ensures_modifyPool]
    apply ensures_change.2
    constructor
    · intro s' changed
      cases released : s.registry.release entry.handle with
      | error e => simp [released, bind, Except.bind] at changed
      | ok outcome =>
        simp only [released, bind, Except.bind] at changed
        cases changed
        exact retains_detach distinct found fun _ => Registry.get_release released
    · intro _ _
      exact retains_detach distinct found fun _ _ => rfl

theorem steady_retains (distinct : s.pool.handles.Nodup) : Steady s.Retains where
  amend s' position _ handles hashes retains :=
    retains.trans (.amend s' position handles hashes)
  note _ _ _ _ retains := retains.trans (.same rfl rfl)
  removeAt _ position retains :=
    (removeAt_retains (retains.nodup distinct) position).imp
      (fun _ _ removed => retains.trans removed) fun _ _ removed => retains.trans removed

theorem scan_retains (distinct : s.pool.handles.Nodup) (solution : Nat)
    (check : Check kind α) : (scan solution check).Reaches s s.Retains :=
  (steady_retains distinct).scan (.refl s) solution check

theorem remove_retains [Poolable α] (distinct : s.pool.handles.Nodup) (handle : Handle kind) :
    (remove handle).Reaches s s.Retains :=
  (steady_retains distinct).remove (.refl s) handle

theorem clear_retains : (clear : Action (Stock kind α) Unit).Reaches s s.Retains := by
  -- a pool without entries retains nothing, whatever becomes of the objects
  have retained (s' : Stock kind α)
      (emptied : s'.pool = { s.pool with entries := #[], index := ∅, cursor := 0 }) :
      s.Retains s' := by
    refine .of_thins (emptied ▸ .emptied rfl rfl) (emptied ▸ Multiset.zero_le _)
      fun handle member => ?_
    rw [emptied] at member
    exact absurd member (Multiset.notMem_zero handle)
  exact clear_pool.mono retained

/-! ### Entries of the pool alone -/

theorem removeAt_thins (position : Nat) :
    (removeAt position).Reaches s fun s' => s.pool.Thins s'.pool := by
  apply (removeAt_pool position).mono
  intro s' removed
  rw [removed]
  cases found : s.pool.entries[position]? with
  | none => exact .refl s.pool
  | some entry => exact .detach found

theorem steady_thins (pool : Pool kind α) : Steady fun s : Stock kind α => pool.Thins s.pool where
  amend s position _ handles hashes thins := thins.trans (.amend s.pool position handles hashes)
  note _ _ _ _ thins := thins.trans (.same rfl rfl)
  removeAt _ position thins := (removeAt_thins position).mono fun _ => thins.trans

end Stock

end BranchCutPrice
