import BranchCutPrice.Pool.Scan
import BranchCutPrice.Proofs.Outcome
import BranchCutPrice.Proofs.Users

/-!
A pool holds the objects of its entries, each once per entry. A stock is balanced if its
registry is balanced against these and what is owed elsewhere; every operation keeps that,
refused or not.
-/

namespace BranchCutPrice

variable {kind : Kind} {α : Type}

/-- The handles of the entries, each as often as it is stored. -/
def Pool.handles (pool : Pool kind α) : Multiset (Handle kind) :=
  (pool.entries.toList.map PoolEntry.handle : List (Handle kind))

namespace Pool

variable {pool : Pool kind α} {position : Nat}

theorem mem_handles {handle : Handle kind} :
    handle ∈ pool.handles ↔ ∃ entry ∈ pool.entries, entry.handle = handle := by
  unfold handles
  rw [Multiset.mem_coe, List.mem_map]
  simp only [Array.mem_toList_iff]

theorem handles_push (pool : Pool kind α) (handle : Handle kind) (hash : UInt64) :
    (pool.push handle hash).handles = handle ::ₘ pool.handles := by
  unfold push handles
  rw [Array.toList_push, List.map_append, Multiset.cons_coe]
  exact Multiset.coe_eq_coe.2 (List.perm_append_singleton _ _)

/-- Taking a position out of a list and replacing it there. -/
private theorem set_cons (items : List (Handle kind)) (i : Nat) (old new : Handle kind)
    (found : items[i]? = some old) :
    old ::ₘ (items.set i new : Multiset (Handle kind)) = new ::ₘ items := by
  obtain ⟨bound, value⟩ := List.getElem?_eq_some_iff.1 found
  have replaced : (items.set i new : Multiset (Handle kind)) = new ::ₘ items.eraseIdx i := by
    rw [Multiset.cons_coe]
    exact Multiset.coe_eq_coe.2 (List.set_perm_cons_eraseIdx bound new)
  have kept : (items : Multiset (Handle kind)) = old ::ₘ items.eraseIdx i := by
    rw [← value, Multiset.cons_coe]
    exact Multiset.coe_eq_coe.2 (List.getElem_cons_eraseIdx_perm bound).symm
  rw [replaced, kept, Multiset.cons_swap]

/-- One of some items leaves, and the last one takes its place. -/
private theorem swap_out (items : List (Handle kind)) (removed moved : Handle kind) (i : Nat)
    (found : items[i]? = some removed) :
    removed ::ₘ ((items ++ [moved]).set i moved).dropLast = (items ++ [moved] : List (Handle kind)) := by
  have inside := (List.getElem?_eq_some_iff.1 found).1
  rw [List.set_append_left _ _ inside, List.dropLast_concat, set_cons _ _ _ _ found,
    Multiset.cons_coe]
  exact Multiset.coe_eq_coe.2 (List.perm_append_singleton _ _).symm

theorem detach_inside {removed moved : PoolEntry kind} (inside : position < pool.entries.size - 1)
    (last : pool.entries[pool.entries.size - 1]? = some moved) :
    (pool.detach position removed).entries =
      (pool.entries.setIfInBounds position { moved with position := position }).pop := by
  unfold detach
  simp only [if_pos inside, last]

theorem detach_last {removed : PoolEntry kind} (last : ¬position < pool.entries.size - 1) :
    (pool.detach position removed).entries = pool.entries.pop := by
  unfold detach
  simp only [if_neg last]

theorem handles_detach {removed : PoolEntry kind}
    (found : pool.entries[position]? = some removed) :
    removed.handle ::ₘ (pool.detach position removed).handles = pool.handles := by
  obtain ⟨bound, value⟩ := Array.getElem?_eq_some_iff.1 found
  obtain ⟨rest, moved, entries⟩ : ∃ rest moved, pool.entries.toList = rest ++ [moved] := by
    have nonempty : pool.entries.toList ≠ [] := by
      apply List.ne_nil_of_length_pos
      rw [Array.length_toList]
      omega
    exact ⟨_, _, (List.dropLast_append_getLast nonempty).symm⟩
  have size : pool.entries.size = rest.length + 1 := by
    rw [← Array.length_toList, entries, List.length_append, List.length_singleton]
  have here : (rest ++ [moved])[position]? = some removed := by
    rw [← entries, Array.getElem?_toList, found]
  unfold handles
  by_cases inside : position < pool.entries.size - 1
  · have last : pool.entries[pool.entries.size - 1]? = some moved := by
      rw [← Array.getElem?_toList, entries, size]
      simp
    rw [detach_inside inside last, Array.toList_pop, Array.toList_setIfInBounds, entries,
      List.map_dropLast, List.map_set, List.map_append]
    apply swap_out
    rw [List.getElem?_append_left (by omega)] at here
    rw [List.getElem?_map, here]
    rfl
  · have position_eq : position = rest.length := by omega
    rw [position_eq, List.getElem?_concat_length, Option.some.injEq] at here
    rw [detach_last inside, Array.toList_pop, entries, List.dropLast_concat, List.map_append,
      Multiset.cons_coe, here]
    exact Multiset.coe_eq_coe.2 (List.perm_append_singleton _ _).symm

theorem handles_modify (pool : Pool kind α) (f : PoolEntry kind → PoolEntry kind)
    (keeps : ∀ entry, (f entry).handle = entry.handle) :
    ({ pool with entries := pool.entries.modify position f } : Pool kind α).handles =
      pool.handles := by
  unfold handles
  rw [Array.toList_modify]
  congr 1
  apply List.ext_getElem?
  intro i
  rw [List.getElem?_map, List.getElem?_map, List.getElem?_modify]
  split
  · cases pool.entries.toList[i]? <;> simp [keeps]
  · simp

end Pool

namespace Stock

open BranchCutPrice.Action

/-- Every user of a registered object is accounted for: an entry, or owed elsewhere. -/
def Balanced (s : Stock kind α) (owed : Multiset (Handle kind)) : Prop :=
  s.registry.Balanced (owed + s.pool.handles)

variable {s : Stock kind α} {owed : Multiset (Handle kind)}

@[simp]
theorem ensures_modifyPool {f : Pool kind α → Pool kind α} {done : Unit → Stock kind α → Prop}
    {refused : Error → Stock kind α → Prop} :
    (modifyPool f).Ensures s done refused ↔ done () ⟨f s.pool, s.registry⟩ :=
  Iff.rfl

/-- Entries may change as long as their handles stay. -/
theorem Balanced.pool (balanced : s.Balanced owed) {pool : Pool kind α}
    (same : pool.handles = s.pool.handles) : (Stock.mk pool s.registry).Balanced owed := by
  unfold Balanced
  rw [same]
  exact balanced

theorem reserve_reaches (balanced : s.Balanced owed) (additional : Nat) :
    (reserve additional).Reaches s fun s' => s'.Balanced owed := by
  refine ensures_change.2 ⟨fun s' changed => ?_, fun _ _ => balanced⟩
  unfold Pool.reserve at changed
  split at changed
  · cases changed
    exact balanced
  · cases changed

/-- An object that is not modifiable is captured and gets an entry under its hash. -/
def Adds [Poolable α] (handle : Handle kind) (s s' : Stock kind α) : Prop :=
  ∃ item registry, s.registry.get handle = .ok item ∧ Poolable.modifiable item = false ∧
    s.registry.capture handle = .ok registry ∧
    s' = ⟨s.pool.push handle (s.pool.key.hash item), registry⟩

theorem add_ensures [Poolable α] (handle : Handle kind) :
    (add handle).Ensures s (fun _ s' => Adds handle s s') fun _ s' => s' = s := by
  refine ensures_change.2 ⟨fun s' changed => ?_, fun _ _ => rfl⟩
  cases got : s.registry.get handle with
  | error e => simp [got, bind, Except.bind] at changed
  | ok item =>
    cases captured : s.registry.capture handle with
    | error e =>
      simp only [got, captured, bind, Except.bind] at changed
      split at changed <;> cases changed
    | ok registry =>
      simp only [got, captured, bind, Except.bind] at changed
      split at changed
      · cases changed
      · rename_i fixed
        cases changed
        exact ⟨item, registry, got, Bool.eq_false_iff.2 fixed, captured, rfl⟩

/-- What is found is given back, and what is not found is added. -/
theorem addIfNew_ensures [Poolable α] (handle : Handle kind) :
    (addIfNew handle).Ensures s
      (fun reply s' =>
        (∃ entry, s.pool.entryOf s.registry handle = .ok (some entry) ∧
          reply = (entry.handle, true) ∧ s' = s) ∨
        s.pool.entryOf s.registry handle = .ok none ∧ reply = (handle, false) ∧ Adds handle s s')
      fun _ s' => s' = s := by
  unfold addIfNew
  rw [ensures_bind]
  refine ensures_read.2 ⟨fun stored looked => ?_, fun _ _ => rfl⟩
  cases stored with
  | some entry => exact .inl ⟨entry, looked, rfl, rfl⟩
  | none =>
    rw [ensures_bind]
    exact (add_ensures handle).imp (fun _ _ adds => .inr ⟨looked, rfl, adds⟩) fun _ _ same => same

/-- What an addition leads to. -/
theorem add_leads [Poolable α] {holds : Stock kind α → Prop} (held : holds s)
    {handle : Handle kind} (adds : ∀ s', Adds handle s s' → holds s') :
    (add handle).Reaches s holds := by
  apply (add_ensures handle).imp
  · exact fun _ => adds
  · rintro _ _ rfl
    exact held

theorem addIfNew_leads [Poolable α] {holds : Stock kind α → Prop} (held : holds s)
    {handle : Handle kind} (adds : ∀ s', s.pool.entryOf s.registry handle = .ok none →
      Adds handle s s' → holds s') : (addIfNew handle).Reaches s holds := by
  apply (addIfNew_ensures handle).imp
  · rintro _ s' (⟨_, _, _, rfl⟩ | ⟨missing, _, added⟩)
    · exact held
    · exact adds s' missing added
  · rintro _ _ rfl
    exact held

theorem Balanced.adds [Poolable α] (balanced : s.Balanced owed) {handle : Handle kind}
    {s' : Stock kind α} (adds : Adds handle s s') : s'.Balanced owed := by
  obtain ⟨item, registry, _, _, captured, rfl⟩ := adds
  have counted := balanced.capture captured
  unfold Balanced
  rwa [Pool.handles_push, Multiset.add_cons]

theorem add_reaches [Poolable α] (balanced : s.Balanced owed) (handle : Handle kind) :
    (add handle).Reaches s fun s' => s'.Balanced owed :=
  add_leads balanced fun _ => balanced.adds

theorem addIfNew_reaches [Poolable α] (balanced : s.Balanced owed) (handle : Handle kind) :
    (addIfNew handle).Reaches s fun s' => s'.Balanced owed :=
  addIfNew_leads balanced fun _ _ => balanced.adds

theorem removeAt_reaches (balanced : s.Balanced owed) (position : Nat) :
    (removeAt position).Ensures s (fun _ s' => s'.Balanced owed) (fun _ _ => False) := by
  unfold removeAt
  rw [ensures_bind, ensures_get]
  cases found : s.pool.entries[position]? with
  | none => exact balanced
  | some entry =>
    rw [ensures_bind]
    have users : s.registry.Balanced
        (entry.handle ::ₘ (owed + (s.pool.detach position entry).handles)) := by
      rw [← Multiset.add_cons, Pool.handles_detach found]
      exact balanced
    obtain ⟨freed, registry, released, rest⟩ := users.release
    rw [ensures_modifyPool]
    refine ensures_change.2 ⟨fun s' changed => ?_, fun e refused => ?_⟩
    · simp only [released] at changed
      cases changed
      exact rest
    · simp only [released] at refused
      cases refused

theorem remove_leads [Poolable α] {holds : Stock kind α → Prop} (held : holds s)
    (removes : ∀ position, (removeAt position).Reaches s holds) (handle : Handle kind) :
    (remove handle).Reaches s holds := by
  unfold Reaches remove
  rw [ensures_bind]
  refine ensures_read.2 ⟨fun found _ => ?_, fun _ _ => held⟩
  cases found with
  | some position => exact removes position
  | none =>
    rw [ensures_bind]
    exact ensures_read.2 ⟨fun _ _ => held, fun _ _ => held⟩

theorem clear_reaches (balanced : s.Balanced owed) :
    (clear : Action (Stock kind α) Unit).Ensures s
      (fun _ s' => s'.Balanced owed ∧ s'.pool.handles = 0) (fun _ _ => False) := by
  unfold clear
  rw [ensures_bind, ensures_get, ensures_bind, ensures_modifyPool]
  -- the entries still to release are owed while they are on no list
  let before (rest : List (PoolEntry kind)) (s' : Stock kind α) : Prop :=
    s'.registry.Balanced (owed + (rest.map PoolEntry.handle : List (Handle kind))) ∧
      s'.pool.handles = 0
  have start : before s.pool.entries.toList
      ⟨{ s.pool with entries := #[], index := ∅, cursor := 0 }, s.registry⟩ := ⟨balanced, rfl⟩
  refine (ensures_forM before (fun entry rest s' reached => ?_) _ start).imp
    (fun _ s' done => ?_) (fun _ _ no => no)
  · obtain ⟨counted, empty⟩ := reached
    rw [List.map_cons, ← Multiset.cons_coe, Multiset.add_cons] at counted
    obtain ⟨freed, registry, released, rest'⟩ := counted.release
    refine ensures_change.2 ⟨fun s'' changed => ?_, fun e refused => ?_⟩
    · simp only [released] at changed
      cases changed
      exact ⟨rest', empty⟩
    · simp only [released] at refused
      cases refused
  · obtain ⟨counted, empty⟩ := done
    refine ⟨?_, empty⟩
    unfold Balanced
    rw [empty]
    exact counted

/-! ### Scanning -/

/-- What scans and removals cannot change: they mark entries, take entries out, move the cursor
and keep statistics. -/
structure Steady (holds : Stock kind α → Prop) : Prop where
  amend : ∀ (s : Stock kind α) (position : Nat) (f : PoolEntry kind → PoolEntry kind),
    (∀ entry, (f entry).handle = entry.handle) → (∀ entry, (f entry).hash = entry.hash) →
      holds s → holds ⟨{ s.pool with entries := s.pool.entries.modify position f }, s.registry⟩
  note : ∀ (s : Stock kind α) (processed : Option Nat) (cursor : Nat) (stats : PoolStats),
    holds s → holds ⟨{ s.pool with processed, cursor, stats }, s.registry⟩
  removeAt : ∀ (s : Stock kind α) (position : Nat), holds s → (removeAt position).Reaches s holds

namespace Steady

variable {holds : Stock kind α → Prop}

variable {done : Unit → Stock kind α → Prop} {refused : Error → Stock kind α → Prop}

theorem modifyStats (steady : Steady holds) (held : holds s) {f : PoolStats → PoolStats}
    (next : ∀ s', holds s' → done () s') : (modifyStats f).Ensures s done refused :=
  next _ (steady.note s s.pool.processed s.pool.cursor (f s.pool.stats) held)

theorem modifyEntry (steady : Steady holds) (held : holds s) {position : Nat}
    {f : PoolEntry kind → PoolEntry kind} (handles : ∀ entry, (f entry).handle = entry.handle)
    (hashes : ∀ entry, (f entry).hash = entry.hash) (next : ∀ s', holds s' → done () s') :
    (modifyEntry position f).Ensures s done refused :=
  next _ (steady.amend s position f handles hashes held)

theorem grow (steady : Steady holds) (held : holds s) (position : Nat)
    (entry : PoolEntry kind) : (grow position entry).Reaches s holds := by
  unfold Reaches Stock.grow
  rw [ensures_bind]
  refine steady.modifyEntry held (fun _ => rfl) (fun _ => rfl) fun s' aged => ?_
  rw [ensures_bind, ensures_get]
  split
  · rw [ensures_bind, ensures_emit, ensures_bind]
    refine (steady.removeAt s' position aged).imp (fun _ s'' removed => ?_) (fun _ _ kept => kept)
    rw [ensures_bind]
    exact steady.modifyStats removed fun _ done => done
  · exact aged

theorem examine (steady : Steady holds) (held : holds s) (solution : Nat)
    (check : Handle kind → α → Verdict) (position : Nat) :
    (examine solution check position).Reaches s holds := by
  unfold Reaches Stock.examine
  rw [ensures_bind, ensures_get]
  cases s.pool.entries[position]? with
  | none => exact held
  | some entry =>
    dsimp only
    split
    · exact held
    · rw [ensures_bind]
      refine steady.modifyEntry held (fun _ => rfl) (fun _ => rfl) fun s' marked => ?_
      rw [ensures_bind]
      refine steady.modifyStats marked fun s'' counted => ?_
      rw [ensures_bind]
      refine ensures_read.2 ⟨fun item _ => ?_, fun _ _ => counted⟩
      cases check entry.handle item with
      | loaded => exact counted
      | useful score =>
        dsimp only
        rw [ensures_bind]
        exact steady.modifyEntry counted (fun _ => rfl) (fun _ => rfl) fun _ done => done
      | useless =>
        dsimp only
        rw [ensures_bind]
        exact (steady.grow counted position entry).imp (fun _ _ done => done)
          (fun _ _ kept => kept)

theorem examineFrom (steady : Steady holds) (held : holds s) (solution : Nat)
    (check : Check kind α) (remaining asked position : Nat) :
    (examineFrom solution check remaining asked position).Reaches s holds := by
  induction remaining generalizing s asked position with
  | zero => exact held
  | succ remaining ih =>
    unfold Reaches Stock.examineFrom
    rw [ensures_bind]
    refine (steady.examine held solution (check asked) position).imp
      (fun found s' examined => ?_) (fun _ _ kept => kept)
    rw [ensures_bind]
    exact (ih examined _ found.2).imp (fun _ _ done => done) (fun _ _ kept => kept)

theorem survey (steady : Steady holds) (held : holds s) (solution : Nat)
    (check : Check kind α) : (survey solution check).Reaches s holds := by
  unfold Reaches Stock.survey
  rw [ensures_bind]
  refine steady.modifyStats held fun s' counted => ?_
  rw [ensures_bind, ensures_get, ensures_bind, ensures_emit, ensures_bind]
  refine (steady.examineFrom counted solution check _ _ _).imp (fun verdicts s'' examined => ?_)
    (fun _ _ kept => kept)
  rw [ensures_bind, ensures_modifyPool, ensures_pure]
  exact steady.note s'' _ _ _ examined

theorem scan (steady : Steady holds) (held : holds s) (solution : Nat)
    (check : Check kind α) : (scan solution check).Reaches s holds := by
  unfold Reaches Stock.scan requireRecent
  rw [ensures_bind]
  refine ensures_read.2 ⟨fun _ _ => ?_, fun _ _ => held⟩
  have moved := steady.note s s.pool.processed
    (if s.pool.processed = some solution then s.pool.cursor else 0) s.pool.stats held
  rw [ensures_bind, ensures_modifyPool, ensures_bind, ensures_get]
  dsimp only
  generalize (if s.pool.processed = some solution then s.pool.cursor else 0) = cursor at moved ⊢
  by_cases passed : s.pool.entries.size ≤ cursor
  · rw [if_pos passed, ensures_bind, ensures_modifyPool, ensures_pure]
    exact steady.note _ _ _ _ moved
  · rw [if_neg passed]
    exact steady.survey moved solution check

theorem remove [Poolable α] (steady : Steady holds) (held : holds s) (handle : Handle kind) :
    (remove handle).Reaches s holds :=
  remove_leads held (fun position => steady.removeAt s position held) handle

end Steady

/-- Marks and statistics leave the handles of the entries as they are. -/
theorem steady_balanced (owed : Multiset (Handle kind)) :
    Steady fun s : Stock kind α => s.Balanced owed where
  amend s _ f handles _ balanced := balanced.pool (Pool.handles_modify s.pool f handles)
  note _ _ _ _ balanced := balanced.pool rfl
  removeAt _ position balanced :=
    Completes.reaches (removeAt_reaches balanced position) fun _ _ done => done

theorem remove_reaches [Poolable α] (balanced : s.Balanced owed) (handle : Handle kind) :
    (remove handle).Reaches s fun s' => s'.Balanced owed :=
  (steady_balanced owed).remove balanced handle

theorem scan_reaches (balanced : s.Balanced owed) (solution : Nat)
    (check : Check kind α) :
    (scan solution check).Reaches s fun s' => s'.Balanced owed :=
  (steady_balanced owed).scan balanced solution check

end Stock

end BranchCutPrice
