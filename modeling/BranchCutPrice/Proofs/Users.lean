import BranchCutPrice.Proofs.Slots
import BranchCutPrice.Slot.Registry
import Mathlib.Data.Multiset.Count
import Mathlib.Algebra.Order.Group.Multiset

/-!
Counting the users of registered objects. A registry is balanced against a bag of
handles if every object in it has as many users as its handle occurs in the bag, and no
other handle occurs. The bag says who holds what; every operation on the registry
changes it by what it captures and releases.
-/

namespace BranchCutPrice.Registry

variable {kind : Kind} {α : Type}

/-- The number of users, none if the handle is stale. -/
def users (registry : Registry kind α) (handle : Handle kind) : Nat :=
  ((registry.table.get? handle).map Shared.uses).getD 0

structure Balanced (registry : Registry kind α) (owed : Multiset (Handle kind)) : Prop where
  sound : registry.table.Sound
  /-- An object without users is gone. -/
  used : ∀ handle object, registry.table.get? handle = some object → 0 < object.uses
  count : ∀ handle, registry.users handle = owed.count handle

variable {registry : Registry kind α} {owed : Multiset (Handle kind)} {handle : Handle kind}

theorem users_of_found {object : Shared α} (found : registry.table.get? handle = some object) :
    registry.users handle = object.uses := by
  unfold users
  rw [found]
  rfl

theorem users_of_stale (stale : registry.table.get? handle = none) :
    registry.users handle = 0 := by
  unfold users
  rw [stale]
  rfl

theorem users_congr {registry' : Registry kind α}
    (same : registry'.table.get? handle = registry.table.get? handle) :
    registry'.users handle = registry.users handle := by
  unfold users
  rw [same]

/-! ### Operations on what a handle names -/

section Named

variable {object : Shared α} (found : registry.table.get? handle = some object)
include found

theorem get_named : registry.get handle = .ok object.value := by
  unfold get shared
  rw [found]
  rfl

theorem uses_named : registry.uses handle = .ok object.uses := by
  unfold uses shared
  rw [found]
  rfl

theorem capture_named : registry.capture handle =
    .ok ⟨registry.table.set handle { object with uses := object.uses + 1 }⟩ := by
  unfold capture shared
  rw [found]
  rfl

theorem release_unused (unused : object.uses = 0) :
    registry.release handle = .error (.useCountUnderflow kind.text handle.index) := by
  unfold release shared
  simp [found, bind, Except.bind, throw, throwThe, MonadExceptOf.throw, unused]

theorem release_last (last : object.uses = 1) :
    registry.release handle = .ok (some object.value, ⟨registry.table.erase handle⟩) := by
  unfold release shared
  simp [found, bind, Except.bind, pure, Except.pure, last]

theorem release_shared (several : 1 < object.uses) : registry.release handle =
    .ok (none, ⟨registry.table.set handle { object with uses := object.uses - 1 }⟩) := by
  have used : object.uses ≠ 0 := by omega
  have more : object.uses ≠ 1 := by omega
  unfold release shared
  simp [found, bind, Except.bind, pure, Except.pure, used, more]

end Named

theorem get_set {object : Shared α} (found : registry.table.get? handle = some object)
    (new : Shared α) (other : Handle kind) :
    get ⟨registry.table.set handle new⟩ other =
      if other = handle then .ok new.value else registry.get other := by
  have changed := SlotTable.get?_set found new other
  unfold get shared
  by_cases same : other = handle
  · rw [changed, if_pos same, if_pos same]
    rfl
  · rw [changed, if_neg same, if_neg same]

theorem get_erase (registry : Registry kind α) (handle other : Handle kind) :
    get ⟨registry.table.erase handle⟩ other =
      if other = handle then .error other.stale else registry.get other := by
  have changed := SlotTable.get?_erase registry.table handle other
  unfold get shared
  by_cases same : other = handle
  · rw [changed, if_pos same, if_pos same]
    rfl
  · rw [changed, if_neg same, if_neg same]

theorem users_set {object : Shared α} (found : registry.table.get? handle = some object)
    (new : Shared α) (other : Handle kind) :
    users ⟨registry.table.set handle new⟩ other =
      if other = handle then new.uses else registry.users other := by
  have changed := SlotTable.get?_set found new other
  unfold users
  rw [changed]
  split <;> rfl

theorem users_erase (registry : Registry kind α) (handle other : Handle kind) :
    users ⟨registry.table.erase handle⟩ other =
      if other = handle then 0 else registry.users other := by
  have changed := SlotTable.get?_erase registry.table handle other
  unfold users
  rw [changed]
  split <;> rfl

/-! ### Operations that were not refused -/

theorem capture_ok {registry' : Registry kind α}
    (captured : registry.capture handle = .ok registry') :
    ∃ object, registry.table.get? handle = some object ∧
      registry' = ⟨registry.table.set handle { object with uses := object.uses + 1 }⟩ := by
  cases found : registry.table.get? handle with
  | none =>
    unfold capture shared at captured
    simp [found, bind, Except.bind] at captured
  | some object =>
    rw [capture_named found] at captured
    cases captured
    exact ⟨object, rfl, rfl⟩

/-- Either the last user goes and takes the object along, or there is one user less. -/
theorem release_ok {freed : Option α} {registry' : Registry kind α}
    (released : registry.release handle = .ok (freed, registry')) :
    ∃ object, registry.table.get? handle = some object ∧
      (object.uses = 1 ∧ freed = some object.value ∧
          registry' = ⟨registry.table.erase handle⟩ ∨
        1 < object.uses ∧ freed = none ∧
          registry' = ⟨registry.table.set handle { object with uses := object.uses - 1 }⟩) := by
  cases found : registry.table.get? handle with
  | none =>
    unfold release shared at released
    simp [found, bind, Except.bind] at released
  | some object =>
    refine ⟨object, rfl, ?_⟩
    obtain unused | last | several : object.uses = 0 ∨ object.uses = 1 ∨ 1 < object.uses := by
      omega
    · rw [release_unused found unused] at released
      cases released
    · rw [release_last found last] at released
      cases released
      exact .inl ⟨last, rfl, rfl⟩
    · rw [release_shared found several] at released
      cases released
      exact .inr ⟨several, rfl, rfl⟩

theorem capture_slots {registry' : Registry kind α}
    (captured : registry.capture handle = .ok registry') :
    registry'.table.slots.size = registry.table.slots.size := by
  obtain ⟨object, _, rfl⟩ := capture_ok captured
  exact SlotTable.size_set _ _ _

/-- A live handle can be captured. -/
theorem capture_live (live : registry.contains handle = true) :
    ∃ registry', registry.capture handle = .ok registry' := by
  obtain ⟨object, found⟩ := SlotTable.contains_iff.1 live
  exact ⟨_, capture_named found⟩

/-- A handle is live if it names an object. -/
theorem contains_iff_get :
    registry.contains handle = true ↔ ∃ item, registry.get handle = .ok item := by
  constructor
  · intro live
    obtain ⟨object, found⟩ := SlotTable.contains_iff.1 live
    exact ⟨object.value, get_named found⟩
  · rintro ⟨item, got⟩
    unfold get shared at got
    cases found : registry.table.get? handle with
    | none => simp [found, bind, Except.bind] at got
    | some object => exact SlotTable.contains_iff.2 ⟨object, found⟩

theorem release_slots {freed : Option α} {registry' : Registry kind α}
    (released : registry.release handle = .ok (freed, registry')) :
    registry'.table.slots.size = registry.table.slots.size := by
  obtain ⟨object, _, ⟨_, _, rfl⟩ | ⟨_, _, rfl⟩⟩ := release_ok released
  · exact SlotTable.size_erase _ _
  · exact SlotTable.size_set _ _ _

/-- What is registered after a release has a handle that named nothing before it. -/
theorem insert_released_stale {freed : Option α} {registry' : Registry kind α}
    (sound : registry.table.Sound) (released : registry.release handle = .ok (freed, registry'))
    {value : α} (fits : (registry'.insert value).2.table.Fits) :
    registry.table.get? (registry'.insert value).1 = none := by
  obtain ⟨object, found, ⟨_, _, rfl⟩ | ⟨_, _, rfl⟩⟩ := release_ok released
  · have new : (registry.table.erase handle).get? _ = none :=
      SlotTable.get?_new (sound.erase handle) fits
    rw [SlotTable.get?_erase, if_neg (SlotTable.insert_erase_ne sound found _)] at new
    exact new
  · have new := SlotTable.get?_new (sound.set handle _) fits
    rw [SlotTable.get?_set found] at new
    split at new
    · cases new
    · exact new

theorem balanced_empty : (empty : Registry kind α).Balanced 0 where
  sound := SlotTable.sound_empty
  used handle object found := by simp [empty] at found
  count handle := by simp [users, empty]

namespace Balanced

theorem found (balanced : registry.Balanced owed) (held : handle ∈ owed) :
    ∃ object, registry.table.get? handle = some object := by
  cases found : registry.table.get? handle with
  | some object => exact ⟨object, rfl⟩
  | none =>
    have absent := (balanced.count handle).symm.trans (users_of_stale found)
    exact absurd held (Multiset.count_eq_zero.1 absent)

theorem live (balanced : registry.Balanced owed) (held : handle ∈ owed) :
    registry.contains handle = true :=
  SlotTable.contains_iff.2 (balanced.found held)

/-- Setting the users of an object balances the registry against another bag. -/
private theorem set (balanced : registry.Balanced owed) {object : Shared α}
    (found : registry.table.get? handle = some object) (new : Shared α) (used : 0 < new.uses)
    {owed' : Multiset (Handle kind)} (here : new.uses = owed'.count handle)
    (elsewhere : ∀ other, other ≠ handle → owed'.count other = owed.count other) :
    (⟨registry.table.set handle new⟩ : Registry kind α).Balanced owed' where
  sound := balanced.sound.set handle new
  used other object' found' := by
    rw [SlotTable.get?_set found] at found'
    by_cases same : other = handle
    · rw [if_pos same] at found'
      cases found'
      exact used
    · rw [if_neg same] at found'
      exact balanced.used other object' found'
  count other := by
    rw [users_set found]
    by_cases same : other = handle
    · rw [if_pos same, here, same]
    · rw [if_neg same, elsewhere other same, balanced.count other]

/-- Taking out an object balances the registry against what nobody holds it in. -/
private theorem erase (balanced : registry.Balanced owed) {owed' : Multiset (Handle kind)}
    (here : owed'.count handle = 0)
    (elsewhere : ∀ other, other ≠ handle → owed'.count other = owed.count other) :
    (⟨registry.table.erase handle⟩ : Registry kind α).Balanced owed' where
  sound := balanced.sound.erase handle
  used other object found := by
    rw [SlotTable.get?_erase] at found
    split at found
    · cases found
    · exact balanced.used other object found
  count other := by
    rw [users_erase]
    by_cases same : other = handle
    · rw [if_pos same, same, here]
    · rw [if_neg same, elsewhere other same, balanced.count other]

theorem replace (balanced : registry.Balanced owed) {value : α} {registry' : Registry kind α}
    (replaced : registry.replace handle value = .ok registry') : registry'.Balanced owed := by
  unfold Registry.replace shared at replaced
  cases found : registry.table.get? handle with
  | none => simp [found, bind, Except.bind] at replaced
  | some object =>
    rw [found] at replaced
    cases replaced
    have used := balanced.used handle object found
    exact balanced.set found { object with value := value } used
      ((users_of_found found).symm.trans (balanced.count handle)) fun _ _ => rfl

theorem capture (balanced : registry.Balanced owed) {registry' : Registry kind α}
    (captured : registry.capture handle = .ok registry') :
    registry'.Balanced (handle ::ₘ owed) := by
  obtain ⟨object, found, rfl⟩ := capture_ok captured
  refine balanced.set found _ (Nat.succ_pos _) ?_ fun other different =>
    Multiset.count_cons_of_ne different _
  rw [Multiset.count_cons_self, ← balanced.count handle, users_of_found found]

/-- What is held can be released. -/
theorem release (balanced : registry.Balanced (handle ::ₘ owed)) :
    ∃ freed registry', registry.release handle = .ok (freed, registry') ∧
      registry'.Balanced owed := by
  obtain ⟨object, found⟩ := balanced.found (Multiset.mem_cons_self handle owed)
  have uses : object.uses = owed.count handle + 1 := by
    rw [← users_of_found found, balanced.count handle, Multiset.count_cons_self]
  have elsewhere : ∀ other, other ≠ handle → owed.count other = (handle ::ₘ owed).count other :=
    fun other different => (Multiset.count_cons_of_ne different owed).symm
  by_cases last : object.uses = 1
  · exact ⟨_, _, release_last found last, balanced.erase (by omega) elsewhere⟩
  · refine ⟨_, _, release_shared found (by omega), balanced.set found _ ?_ ?_ elsewhere⟩
    · change 0 < object.uses - 1
      omega
    · change object.uses - 1 = _
      omega

theorem insert (balanced : registry.Balanced owed) (value : α)
    (fits : (registry.insert value).2.table.Fits) :
    (registry.insert value).2.Balanced ((registry.insert value).1 ::ₘ owed) := by
  have looked (other : Handle kind) : (registry.insert value).2.table.get? other =
      if other = (registry.insert value).1 then some ⟨value, 1⟩ else registry.table.get? other :=
    SlotTable.get?_insert balanced.sound fits other
  have stale : registry.table.get? (registry.insert value).1 = none :=
    SlotTable.get?_new balanced.sound fits
  refine ⟨balanced.sound.insert _, fun other object found => ?_, fun other => ?_⟩
  · rw [looked other] at found
    by_cases same : other = (registry.insert value).1
    · rw [if_pos same] at found
      cases found
      exact Nat.one_pos
    · rw [if_neg same] at found
      exact balanced.used other object found
  · have changed := looked other
    by_cases same : other = (registry.insert value).1
    · rw [if_pos same] at changed
      rw [users_of_found changed, same, Multiset.count_cons_self, ← balanced.count,
        users_of_stale stale]
    · rw [if_neg same] at changed
      rw [Multiset.count_cons_of_ne same, ← balanced.count other]
      exact users_congr changed

end Balanced

end BranchCutPrice.Registry
