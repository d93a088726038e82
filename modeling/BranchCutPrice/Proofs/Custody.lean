import BranchCutPrice.Proofs.Conservation
import BranchCutPrice.Proofs.History

/-!
Counted ownership. A run of insertions, captures and releases is compared with its own
account: which objects were inserted, and how often each was captured and released since.
As long as no generation comes round, the account alone says which handles are accepted.
-/

namespace BranchCutPrice

variable {kind : Kind} {α : Type}

/-- Emptying a slot moves it on to its next generation. -/
theorem SlotTable.generationAt_erase {table : SlotTable kind α} {handle : Handle kind}
    (live : table.contains handle = true) (i : Nat) : (table.erase handle).generationAt i =
      table.generationAt i + if handle.index = i then 1 else 0 := by
  obtain ⟨occupied, current⟩ := contains_iff_slot.1 live
  have inside : handle.index < table.slots.size := by
    obtain ⟨a, found⟩ := contains_iff.1 live
    exact (Array.getElem?_eq_some_iff.1 (get?_eq_some.1 found)).1
  unfold erase
  rw [if_pos live]
  by_cases same : handle.index = i
  · subst same
    rw [if_pos rfl, current]
    unfold generationAt
    dsimp only
    rw [Array.getElem?_setIfInBounds_self_of_lt inside]
    rfl
  · rw [if_neg same]
    unfold generationAt
    dsimp only
    rw [Array.getElem?_setIfInBounds_ne same]
    exact (UInt32.add_zero _).symm

/-! ### One call -/

inductive RegistryCall (kind : Kind) (α : Type) where
  | insert (value : α)
  | capture (handle : Handle kind)
  | release (handle : Handle kind)

/-- What a call reports. -/
inductive RegistryAnswer (kind : Kind) (α : Type) where
  | inserted (handle : Handle kind)
  | captured
  | released (freed : Option α)

def RegistryCall.perform : RegistryCall kind α → Action (Registry kind α) (RegistryAnswer kind α)
  | .insert value => do
      let handle ← modifyGet (·.insert value)
      return .inserted handle
  | .capture handle => do
      .change (·.capture handle)
      return .captured
  | .release handle => do
      let (freed, registry) ← .read (·.release handle)
      set registry
      return .released freed

namespace Registry

variable {registry : Registry kind α} {handle : Handle kind}

/-- A handle that names nothing is refused by every operation. -/
structure Refuses (registry : Registry kind α) (handle : Handle kind) : Prop where
  contains : registry.contains handle = false
  get : registry.get handle = .error handle.stale
  uses : registry.uses handle = .error handle.stale
  capture : registry.capture handle = .error handle.stale
  release : registry.release handle = .error handle.stale

theorem refuses_of_absent (absent : registry.table.get? handle = none) :
    registry.Refuses handle := by
  constructor
  · unfold contains SlotTable.contains
    rw [absent]
    rfl
  · unfold get shared
    rw [absent]
    rfl
  · unfold uses shared
    rw [absent]
    rfl
  · unfold capture shared
    rw [absent]
    rfl
  · unfold release shared
    rw [absent]
    rfl

/-- What the operations make of an object with some users. The last release hands it out. -/
structure Serves (registry : Registry kind α) (handle : Handle kind) (value : α) (users : Nat) :
    Prop where
  contains : registry.contains handle = true
  get : registry.get handle = .ok value
  uses : registry.uses handle = .ok users
  capture : ∃ registry', registry.capture handle = .ok registry'
  release : ∃ registry', registry.release handle =
    .ok (if users = 1 then some value else none, registry')

theorem serves_of_found {object : Shared α} (found : registry.table.get? handle = some object)
    (used : 0 < object.uses) : registry.Serves handle object.value object.uses := by
  refine ⟨SlotTable.contains_iff.2 ⟨object, found⟩, get_named found, uses_named found,
    ⟨_, capture_named found⟩, ?_⟩
  by_cases last : object.uses = 1
  · rw [if_pos last]
    exact ⟨_, release_last found last⟩
  · rw [if_neg last]
    exact ⟨_, release_shared found (by omega)⟩

end Registry

/-- A refused call changes nothing. -/
theorem RegistryCall.perform_refused (call : RegistryCall kind α) (registry : Registry kind α) :
    call.perform.Ensures registry (fun _ _ => True) fun _ registry' => registry' = registry := by
  cases call with
  | insert value => trivial
  | capture handle =>
    unfold perform
    rw [Action.ensures_bind, Action.ensures_change]
    exact ⟨fun _ _ => trivial, fun _ _ => rfl⟩
  | release handle =>
    unfold perform
    rw [Action.ensures_bind, Action.ensures_read]
    exact ⟨fun _ _ => trivial, fun _ _ => rfl⟩

/-! ### The account of a run -/

/-- A registry with the account of the calls so far, the latest ones first. -/
structure Custody (kind : Kind) (α : Type) where
  registry : Registry kind α
  inserted : List (Handle kind × α)
  captured : List (Handle kind)
  released : List (Handle kind)
  /-- The handles with the last release of their object. -/
  freed : List (Handle kind)

namespace Custody

def empty : Custody kind α :=
  ⟨.empty, [], [], [], []⟩

/-- Performs a call and notes what it did, which is nothing if it is refused. -/
def observe (custody : Custody kind α) (call : RegistryCall kind α) : Custody kind α :=
  let done := call.perform custody.registry
  let custody' := { custody with registry := done.state }
  match call, done.result with
  | .insert value, .ok (.inserted handle) =>
      { custody' with inserted := (handle, value) :: custody.inserted }
  | .capture handle, .ok .captured => { custody' with captured := handle :: custody.captured }
  | .release handle, .ok (.released none) => { custody' with released := handle :: custody.released }
  | .release handle, .ok (.released (some _)) =>
      { custody' with
        released := handle :: custody.released
        freed := handle :: custody.freed }
  | _, _ => custody'

def after (custody : Custody kind α) (calls : List (RegistryCall kind α)) : Custody kind α :=
  calls.foldl observe custody

def handles (custody : Custody kind α) : List (Handle kind) :=
  custody.inserted.map Prod.fst

/-- The users of an inserted object: its owner, and who captured it, less those who left. -/
def uses (custody : Custody kind α) (handle : Handle kind) : Nat :=
  1 + custody.captured.count handle - custody.released.count handle

/-- How often a slot was emptied. -/
def emptied (custody : Custody kind α) (slot : Nat) : Nat :=
  custody.freed.countP (·.index = slot)

/-- The slots are fewer than 32 bits can count, and so are the times each was emptied. -/
structure Few (custody : Custody kind α) : Prop where
  slots : custody.registry.table.Roomy
  emptied : ∀ slot, custody.emptied slot < 2 ^ 32

/-- What a call can do to an account. -/
inductive Turn (custody : Custody kind α) : Custody kind α → Prop where
  | refuse : Turn custody custody
  | insert (value : α) :
      Turn custody { custody with
        registry := (custody.registry.insert value).2
        inserted := ((custody.registry.insert value).1, value) :: custody.inserted }
  | capture (handle : Handle kind) (object : Shared α)
      (found : custody.registry.table.get? handle = some object) :
      Turn custody { custody with
        registry := ⟨custody.registry.table.set handle { object with uses := object.uses + 1 }⟩
        captured := handle :: custody.captured }
  | release (handle : Handle kind) (object : Shared α)
      (found : custody.registry.table.get? handle = some object) (several : 1 < object.uses) :
      Turn custody { custody with
        registry := ⟨custody.registry.table.set handle { object with uses := object.uses - 1 }⟩
        released := handle :: custody.released }
  | free (handle : Handle kind) (object : Shared α)
      (found : custody.registry.table.get? handle = some object) (last : object.uses = 1) :
      Turn custody { custody with
        registry := ⟨custody.registry.table.erase handle⟩
        released := handle :: custody.released
        freed := handle :: custody.freed }

theorem observe_turn (custody : Custody kind α) (call : RegistryCall kind α) :
    custody.Turn (custody.observe call) := by
  cases call with
  | insert value => exact .insert value
  | capture handle =>
    cases found : custody.registry.table.get? handle with
    | none =>
      have refused := (Registry.refuses_of_absent found).capture
      simp only [observe, RegistryCall.perform, Action.change, bind, refused, Outcome.andThen]
      exact .refuse
    | some object =>
      have captured := Registry.capture_named found
      simp only [observe, RegistryCall.perform, Action.change, bind, captured, Outcome.andThen,
        pure, Outcome.after]
      exact .capture handle object found
  | release handle =>
    cases found : custody.registry.table.get? handle with
    | none =>
      have refused := (Registry.refuses_of_absent found).release
      simp only [observe, RegistryCall.perform, Action.read, bind, refused, Outcome.andThen]
      exact .refuse
    | some object =>
      obtain unused | last | several : object.uses = 0 ∨ object.uses = 1 ∨ 1 < object.uses := by
        omega
      · have refused := Registry.release_unused found unused
        simp only [observe, RegistryCall.perform, Action.read, bind, refused, Outcome.andThen]
        exact .refuse
      · have released := Registry.release_last found last
        simp only [observe, RegistryCall.perform, Action.read, bind, released, Outcome.andThen,
          pure, Outcome.after, set, MonadStateOf.set]
        exact .free handle object found last
      · have released := Registry.release_shared found several
        simp only [observe, RegistryCall.perform, Action.read, bind, released, Outcome.andThen,
          pure, Outcome.after, set, MonadStateOf.set]
        exact .release handle object found several

/-! ### The account is right -/

/-- The account of a run of calls fits what the registry holds. -/
structure Sound (custody : Custody kind α) : Prop where
  table : custody.registry.table.Sound
  used : ∀ handle object, custody.registry.table.get? handle = some object → 0 < object.uses
  distinct : custody.handles.Nodup
  inserted : ∀ handle object, custody.registry.table.get? handle = some object →
    (handle, object.value) ∈ custody.inserted
  users : ∀ handle, custody.registry.users handle + custody.released.count handle =
    custody.handles.count handle + custody.captured.count handle
  generation : ∀ slot, custody.registry.table.generationAt slot =
    UInt32.ofNat (custody.emptied slot)
  /-- The slot of a handle that names nothing any more is past its generation. -/
  past : ∀ handle ∈ custody.handles, custody.registry.table.get? handle = none →
    handle.generation.toNat < custody.emptied handle.index

variable {custody custody' : Custody kind α}

theorem emptied_cons (custody : Custody kind α) (handle : Handle kind) (slot : Nat) :
    emptied { custody with freed := handle :: custody.freed } slot =
      custody.emptied slot + if handle.index = slot then 1 else 0 := by
  unfold emptied
  rw [List.countP_cons]
  simp

/-- Slots are never given back, and emptyings never taken back. -/
theorem Few.earlier (few : custody'.Few) (turn : custody.Turn custody') : custody.Few := by
  obtain ⟨slots, emptied⟩ := few
  unfold SlotTable.Roomy at slots
  cases turn with
  | refuse => exact ⟨slots, emptied⟩
  | insert value =>
    exact ⟨Nat.lt_of_le_of_lt (SlotTable.size_le_insert _ _) slots, emptied⟩
  | capture | release =>
    rw [SlotTable.size_set] at slots
    exact ⟨slots, emptied⟩
  | free handle =>
    rw [SlotTable.size_erase] at slots
    refine ⟨slots, fun slot => ?_⟩
    have later : custody.emptied slot + (if handle.index = slot then 1 else 0) < 2 ^ 32 :=
      (emptied_cons custody handle slot).symm.trans_lt (emptied slot)
    omega

namespace Sound

theorem empty : (empty : Custody kind α).Sound := by
  constructor
  · exact SlotTable.sound_empty
  · intro handle object found
    simp [Custody.empty, Registry.empty] at found
  · exact List.nodup_nil
  · intro handle object found
    simp [Custody.empty, Registry.empty] at found
  · intro handle
    simp [Custody.empty, Registry.empty, Registry.users, handles]
  · intro slot
    rfl
  · intro handle member
    cases member

/-- The generation of a handle that names something is the number of times its slot was
emptied. -/
theorem current (sound : custody.Sound) (few : custody.Few) {handle : Handle kind}
    {generation : UInt32}
    (here : custody.registry.table.generationAt handle.index = generation) :
    generation.toNat = custody.emptied handle.index := by
  rw [← here, sound.generation, UInt32.toNat_ofNat']
  exact Nat.mod_eq_of_lt (few.emptied _)

/-- A new handle was never given out before. -/
theorem fresh (sound : custody.Sound) (few : custody.Few) (value : α)
    (fits : (custody.registry.insert value).2.table.Fits) :
    (custody.registry.insert value).1 ∉ custody.handles := by
  intro member
  have absent : custody.registry.table.get? (custody.registry.insert value).1 = none :=
    SlotTable.get?_new sound.table fits
  have named : (custody.registry.insert value).2.table.contains
      (custody.registry.insert value).1 = true := by
    apply SlotTable.contains_iff.2
    exact ⟨⟨value, 1⟩, (SlotTable.get?_insert sound.table fits _).trans (if_pos rfl)⟩
  have generation := (SlotTable.contains_iff_slot.1 named).2
  have same := generation.symm.trans (SlotTable.generationAt_insert _ _ _)
  have past := sound.past _ member absent
  rw [sound.current few same.symm] at past
  exact Nat.lt_irrefl _ past

theorem insert (sound : custody.Sound) (few : custody.Few) (value : α)
    (fits : (custody.registry.insert value).2.table.Fits) :
    Sound { custody with
      registry := (custody.registry.insert value).2
      inserted := ((custody.registry.insert value).1, value) :: custody.inserted } := by
  have looked (other : Handle kind) : (custody.registry.insert value).2.table.get? other =
      if other = (custody.registry.insert value).1 then some ⟨value, 1⟩
      else custody.registry.table.get? other :=
    SlotTable.get?_insert sound.table fits other
  have absent : custody.registry.table.get? (custody.registry.insert value).1 = none :=
    SlotTable.get?_new sound.table fits
  refine ⟨sound.table.insert _, ?_, ?_, ?_, ?_, ?_, ?_⟩
  · intro other object found
    rw [looked] at found
    split at found
    · cases found
      exact Nat.one_pos
    · exact sound.used other object found
  · exact List.nodup_cons.2 ⟨sound.fresh few value fits, sound.distinct⟩
  · intro other object found
    rw [looked] at found
    split at found
    · rename_i same
      cases found
      rw [same]
      exact List.mem_cons_self
    · exact List.mem_cons_of_mem _ (sound.inserted other object found)
  · intro other
    have before := sound.users other
    change (custody.registry.insert value).2.users other + custody.released.count other =
      ((custody.registry.insert value).1 :: custody.handles).count other +
        custody.captured.count other
    have changed := looked other
    by_cases same : other = (custody.registry.insert value).1
    · rw [if_pos same] at changed
      rw [same, Registry.users_of_stale absent] at before
      rw [Registry.users_of_found changed, same, List.count_cons_self]
      change 1 + _ = _
      omega
    · rw [if_neg same] at changed
      rw [Registry.users_congr changed, List.count_cons_of_ne (Ne.symm same)]
      exact before
  · intro slot
    exact (SlotTable.generationAt_insert _ _ slot).trans (sound.generation slot)
  · intro other member gone
    rw [looked] at gone
    split at gone
    · cases gone
    · rename_i different
      obtain same | earlier := List.mem_cons.1 member
      · exact absurd same different
      · exact sound.past other earlier gone

/-- Another user, or one less: the object stays. -/
private theorem recount (sound : custody.Sound) {handle : Handle kind} {object : Shared α}
    (found : custody.registry.table.get? handle = some object) {users : Nat} (used : 0 < users)
    {captured released : List (Handle kind)}
    (here : users + released.count handle = custody.handles.count handle + captured.count handle)
    (elsewhere : ∀ other, other ≠ handle → captured.count other = custody.captured.count other ∧
      released.count other = custody.released.count other) :
    Sound { custody with
      registry := ⟨custody.registry.table.set handle { object with uses := users }⟩
      captured := captured
      released := released } := by
  have looked := SlotTable.get?_set found { object with uses := users }
  refine ⟨sound.table.set _ _, ?_, sound.distinct, ?_, ?_, ?_, ?_⟩
  · intro other object' found'
    rw [looked] at found'
    split at found'
    · cases found'
      exact used
    · exact sound.used other object' found'
  · intro other object' found'
    rw [looked] at found'
    split at found'
    · rename_i same
      cases found'
      rw [same]
      exact sound.inserted handle object found
    · exact sound.inserted other object' found'
  · intro other
    change Registry.users ⟨custody.registry.table.set handle { object with uses := users }⟩ other +
      released.count other = custody.handles.count other + captured.count other
    rw [Registry.users_set found]
    by_cases same : other = handle
    · rw [if_pos same, same]
      exact here
    · rw [if_neg same, (elsewhere other same).1, (elsewhere other same).2]
      exact sound.users other
  · intro slot
    exact (SlotTable.generationAt_set _ _ _ slot).trans (sound.generation slot)
  · intro other member gone
    rw [looked] at gone
    split at gone
    · cases gone
    · exact sound.past other member gone

theorem capture (sound : custody.Sound) {handle : Handle kind} {object : Shared α}
    (found : custody.registry.table.get? handle = some object) :
    Sound { custody with
      registry := ⟨custody.registry.table.set handle { object with uses := object.uses + 1 }⟩
      captured := handle :: custody.captured } := by
  apply sound.recount found (Nat.succ_pos _)
  · have before := sound.users handle
    rw [Registry.users_of_found found] at before
    rw [List.count_cons_self]
    omega
  · intro other different
    exact ⟨List.count_cons_of_ne (Ne.symm different), rfl⟩

theorem release (sound : custody.Sound) {handle : Handle kind} {object : Shared α}
    (found : custody.registry.table.get? handle = some object) (several : 1 < object.uses) :
    Sound { custody with
      registry := ⟨custody.registry.table.set handle { object with uses := object.uses - 1 }⟩
      released := handle :: custody.released } := by
  apply sound.recount found (by omega)
  · have before := sound.users handle
    rw [Registry.users_of_found found] at before
    rw [List.count_cons_self]
    omega
  · intro other different
    exact ⟨rfl, List.count_cons_of_ne (Ne.symm different)⟩

theorem free (sound : custody.Sound) (few : custody.Few) {handle : Handle kind}
    {object : Shared α} (found : custody.registry.table.get? handle = some object)
    (last : object.uses = 1) :
    Sound { custody with
      registry := ⟨custody.registry.table.erase handle⟩
      released := handle :: custody.released
      freed := handle :: custody.freed } := by
  have looked := SlotTable.get?_erase custody.registry.table handle
  have emptied := emptied_cons custody handle
  refine ⟨sound.table.erase handle, ?_, sound.distinct, ?_, ?_, ?_, ?_⟩
  · intro other object' found'
    rw [looked] at found'
    split at found'
    · cases found'
    · exact sound.used other object' found'
  · intro other object' found'
    rw [looked] at found'
    split at found'
    · cases found'
    · exact sound.inserted other object' found'
  · intro other
    have before := sound.users other
    change Registry.users ⟨custody.registry.table.erase handle⟩ other +
      (handle :: custody.released).count other =
        custody.handles.count other + custody.captured.count other
    rw [Registry.users_erase]
    by_cases same : other = handle
    · rw [same, Registry.users_of_found found] at before
      rw [if_pos same, same, List.count_cons_self]
      omega
    · rw [if_neg same, List.count_cons_of_ne (Ne.symm same)]
      exact before
  · intro slot
    have before := sound.generation slot
    change (custody.registry.table.erase handle).generationAt slot =
      UInt32.ofNat (Custody.emptied { custody with freed := handle :: custody.freed } slot)
    rw [SlotTable.generationAt_erase (SlotTable.contains_iff.2 ⟨object, found⟩), before, emptied]
    split
    · exact (UInt32.ofNat_add _ 1).symm
    · exact UInt32.add_zero _
  · intro other member gone
    change other.generation.toNat <
      Custody.emptied { custody with freed := handle :: custody.freed } other.index
    rw [looked] at gone
    rw [emptied]
    split at gone
    · rename_i same
      have named : custody.registry.table.contains handle = true :=
        SlotTable.contains_iff.2 ⟨object, found⟩
      have now := sound.current few (SlotTable.contains_iff_slot.1 named).2
      rw [same, if_pos rfl, now]
      exact Nat.lt_succ_self _
    · have past := sound.past other member gone
      omega

/-- Every call keeps the account right. -/
theorem turn (sound : custody.Sound) (few : custody'.Few) (turn : custody.Turn custody') :
    custody'.Sound := by
  have earlier := few.earlier turn
  cases turn with
  | refuse => exact sound
  | insert value => exact sound.insert earlier value few.slots.fits
  | capture handle object found => exact sound.capture found
  | release handle object found several => exact sound.release found several
  | free handle object found last => exact sound.free earlier found last

/-- What is gone stays gone, as its handle is not given out again. -/
theorem gone (sound : custody.Sound) (few : custody'.Few) (turn : custody.Turn custody')
    {handle : Handle kind} (given : handle ∈ custody.handles)
    (absent : custody.registry.table.get? handle = none) :
    handle ∈ custody'.handles ∧ custody'.registry.table.get? handle = none := by
  have earlier := few.earlier turn
  cases turn with
  | refuse => exact ⟨given, absent⟩
  | insert value =>
    have fits : (custody.registry.insert value).2.table.Fits := few.slots.fits
    have different : handle ≠ (custody.registry.insert value).1 := fun same =>
      sound.fresh earlier value fits (same ▸ given)
    refine ⟨List.mem_cons_of_mem _ given, ?_⟩
    exact (SlotTable.get?_insert sound.table fits handle).trans ((if_neg different).trans absent)
  | capture other object found | release other object found =>
    have different : handle ≠ other := fun same => by
      rw [same, found] at absent
      cases absent
    exact ⟨given, (SlotTable.get?_set found _ handle).trans ((if_neg different).trans absent)⟩
  | free other object found =>
    refine ⟨given, (SlotTable.get?_erase _ _ _).trans ?_⟩
    split
    · rfl
    · exact absent

end Sound

/-! ### Runs -/

theorem Few.begin {calls : List (RegistryCall kind α)} (few : (custody.after calls).Few) :
    custody.Few := by
  induction calls generalizing custody with
  | nil => exact few
  | cons call rest ih => exact (ih few).earlier (custody.observe_turn call)

theorem Sound.after (sound : custody.Sound) {calls : List (RegistryCall kind α)}
    (few : (custody.after calls).Few) : (custody.after calls).Sound := by
  induction calls generalizing custody with
  | nil => exact sound
  | cons call rest ih =>
    have next : (custody.observe call).Few := Few.begin few
    exact ih (sound.turn next (custody.observe_turn call)) few

theorem Sound.gone_after (sound : custody.Sound) {calls : List (RegistryCall kind α)}
    (few : (custody.after calls).Few) {handle : Handle kind} (given : handle ∈ custody.handles)
    (absent : custody.registry.table.get? handle = none) :
    (custody.after calls).registry.table.get? handle = none := by
  induction calls generalizing custody with
  | nil => exact absent
  | cons call rest ih =>
    have turn := custody.observe_turn call
    have next : (custody.observe call).Few := Few.begin few
    obtain ⟨given', absent'⟩ := sound.gone next turn given absent
    exact ih (sound.turn next turn) few given' absent'

/-- The account says what the registry holds, and which handles it accepts. -/
structure Exact (custody : Custody kind α) : Prop where
  distinct : custody.handles.Nodup
  covered : ∀ handle ∈ custody.handles,
    custody.released.count handle ≤ 1 + custody.captured.count handle
  serves : ∀ handle value, (handle, value) ∈ custody.inserted → 0 < custody.uses handle →
    custody.registry.Serves handle value (custody.uses handle)
  refuses : ∀ handle, handle ∉ custody.handles ∨ custody.uses handle = 0 →
    custody.registry.Refuses handle
  size : custody.registry.size = custody.handles.countP (0 < custody.uses ·)
  entries : custody.registry.entries.Perm (custody.inserted.filter (0 < custody.uses ·.1))
  free : ∀ slot, (custody.registry.table.free.map UInt32.toNat).count slot =
    if custody.registry.table.slots[slot]?.any (·.content.isNone) then 1 else 0
  used : ∀ slot ∈ custody.registry.table.slots, ∀ object, slot.content = some object →
    0 < object.uses
  /-- No release meets an object without users. -/
  released : ∀ handle e, custody.registry.release handle = .error e → e = handle.stale

namespace Sound

/-- What was never given out names nothing. -/
theorem given (sound : custody.Sound) {handle : Handle kind} {object : Shared α}
    (found : custody.registry.table.get? handle = some object) : handle ∈ custody.handles :=
  List.mem_map.2 ⟨_, sound.inserted handle object found, rfl⟩

theorem users_eq (sound : custody.Sound) {handle : Handle kind} (given : handle ∈ custody.handles) :
    custody.registry.users handle + custody.released.count handle =
      1 + custody.captured.count handle := by
  rw [sound.users, List.count_eq_one_of_mem sound.distinct given]

theorem uses_eq (sound : custody.Sound) {handle : Handle kind} (given : handle ∈ custody.handles) :
    custody.uses handle = custody.registry.users handle := by
  have balance := sound.users_eq given
  unfold uses
  omega

/-- Of the objects inserted under a handle there is only one. -/
theorem value_eq (sound : custody.Sound) {handle : Handle kind} {left right : α}
    (first : (handle, left) ∈ custody.inserted) (second : (handle, right) ∈ custody.inserted) :
    left = right :=
  congrArg Prod.snd (List.inj_on_of_nodup_map sound.distinct first second rfl)

theorem found_iff (sound : custody.Sound) {handle : Handle kind} (given : handle ∈ custody.handles) :
    0 < custody.uses handle ↔ ∃ object, custody.registry.table.get? handle = some object := by
  rw [sound.uses_eq given]
  constructor
  · intro used
    cases found : custody.registry.table.get? handle with
    | some object => exact ⟨object, rfl⟩
    | none =>
      rw [Registry.users_of_stale found] at used
      cases used
  · intro named
    obtain ⟨object, found⟩ := named
    rw [Registry.users_of_found found]
    exact sound.used handle object found

theorem absent (sound : custody.Sound) {handle : Handle kind}
    (gone : handle ∉ custody.handles ∨ custody.uses handle = 0) :
    custody.registry.table.get? handle = none := by
  cases found : custody.registry.table.get? handle with
  | none => rfl
  | some object =>
    have given := sound.given found
    have used := (sound.found_iff given).2 ⟨object, found⟩
    obtain foreign | unused := gone
    · exact absurd given foreign
    · omega

theorem entries_perm (sound : custody.Sound) (fits : custody.registry.table.Fits) :
    custody.registry.entries.Perm (custody.inserted.filter (0 < custody.uses ·.1)) := by
  have handles : custody.registry.entries.map Prod.fst = custody.registry.table.handles := by
    unfold Registry.entries SlotTable.handles
    rw [List.map_map]
    rfl
  have once : custody.registry.entries.Nodup := by
    apply List.Nodup.of_map Prod.fst
    rw [handles]
    exact SlotTable.handles_nodup fits
  have inserted : custody.inserted.Nodup := List.Nodup.of_map Prod.fst sound.distinct
  rw [List.perm_ext_iff_of_nodup once (inserted.filter _)]
  rintro ⟨handle, value⟩
  rw [List.mem_filter, decide_eq_true_eq]
  constructor
  · intro member
    obtain ⟨⟨other, object⟩, stored, same⟩ := List.mem_map.1 member
    cases same
    have found := (SlotTable.mem_entries fits).1 stored
    exact ⟨sound.inserted handle object found,
      (sound.found_iff (sound.given found)).2 ⟨object, found⟩⟩
  · intro member
    obtain ⟨inserted, used⟩ := member
    have given : handle ∈ custody.handles := List.mem_map.2 ⟨_, inserted, rfl⟩
    obtain ⟨object, found⟩ := (sound.found_iff given).1 used
    rw [sound.value_eq inserted (sound.inserted handle object found)]
    exact List.mem_map.2 ⟨(handle, object), (SlotTable.mem_entries fits).2 found, rfl⟩

theorem exact (sound : custody.Sound) (few : custody.Few) : custody.Exact := by
  have fits := few.slots.fits
  have listed := sound.entries_perm fits
  refine ⟨sound.distinct, ?_, ?_, ?_, ?_, listed, sound.table.count_free fits, ?_, ?_⟩
  · intro handle given
    have balance := sound.users_eq given
    omega
  · intro handle value inserted used
    have given : handle ∈ custody.handles := List.mem_map.2 ⟨_, inserted, rfl⟩
    obtain ⟨object, found⟩ := (sound.found_iff given).1 used
    rw [sound.uses_eq given, Registry.users_of_found found,
      sound.value_eq inserted (sound.inserted handle object found)]
    exact Registry.serves_of_found found (sound.used handle object found)
  · intro handle gone
    exact Registry.refuses_of_absent (sound.absent gone)
  · have length := listed.length_eq
    rw [← List.countP_eq_length_filter] at length
    unfold Registry.size handles
    rw [← SlotTable.length_handles sound.table, List.countP_map]
    unfold Registry.entries at length
    rw [List.length_map] at length
    unfold SlotTable.handles
    rw [List.length_map]
    exact length
  · intro slot member object content
    obtain ⟨i, bounded, found⟩ := Array.mem_iff_getElem.1 member
    have index : i.toUInt32.toNat = i := by
      unfold SlotTable.Fits at fits
      rw [Nat.toUInt32_eq, UInt32.toNat_ofNat']
      exact Nat.mod_eq_of_lt (by omega)
    apply sound.used ⟨i.toUInt32, slot.generation⟩ object
    rw [SlotTable.get?_eq_some]
    change custody.registry.table.slots[i.toUInt32.toNat]? = _
    rw [index, Array.getElem?_eq_getElem bounded, found, ← content]
  · intro handle e refused
    cases found : custody.registry.table.get? handle with
    | none =>
      rw [(Registry.refuses_of_absent found).release] at refused
      cases refused
      rfl
    | some object =>
      obtain ⟨_, released⟩ :=
        (Registry.serves_of_found found (sound.used handle object found)).release
      rw [released] at refused
      cases refused

end Sound

end Custody

open Custody

/-- A registry counts the owners of its objects: what the calls did so far decides which handles
are accepted, with how many users, and a handle once refused as stale is so for ever. -/
theorem ownership_counted (calls : List (RegistryCall kind α))
    (few : (Custody.empty.after calls).Few) :
    (Custody.empty.after calls).Exact ∧
      (∀ call : RegistryCall kind α,
        call.perform.Ensures (Custody.empty.after calls).registry (fun _ _ => True)
          fun _ registry' => registry' = (Custody.empty.after calls).registry) ∧
      ∀ handle ∈ (Custody.empty.after calls).handles,
        (Custody.empty.after calls).uses handle = 0 →
        ∀ more, (Custody.empty.after (calls ++ more)).Few →
          (Custody.empty.after (calls ++ more)).registry.Refuses handle := by
  have sound : (Custody.empty.after calls).Sound := Sound.empty.after few
  refine ⟨sound.exact few, fun call => call.perform_refused _, ?_⟩
  intro handle given gone more few'
  have joined : Custody.empty.after (calls ++ more) = (Custody.empty.after calls).after more :=
    List.foldl_append
  rw [joined] at few' ⊢
  exact Registry.refuses_of_absent (sound.gone_after few' given (sound.absent (.inr gone)))

/-- A slot that was emptied serves its second object, and no longer its first one. -/
theorem ownership_counted_reused :
    let calls : List (RegistryCall .row Nat) :=
      [.insert 7, .capture ⟨0, 0⟩, .release ⟨0, 0⟩, .release ⟨0, 0⟩]
    let more : List (RegistryCall .row Nat) :=
      [.insert 8, .release ⟨0, 0⟩, .capture ⟨0, 1⟩]
    (Custody.empty.after (calls ++ more)).registry.Refuses ⟨0, 0⟩ ∧
      (Custody.empty.after (calls ++ more)).registry.Serves ⟨0, 1⟩ 8 2 := by
  intro calls more
  have few : (Custody.empty.after calls).Few :=
    ⟨by decide, fun slot => Nat.lt_of_le_of_lt List.countP_le_length (by decide)⟩
  have few' : (Custody.empty.after (calls ++ more)).Few :=
    ⟨by decide, fun slot => Nat.lt_of_le_of_lt List.countP_le_length (by decide)⟩
  obtain ⟨_, _, gone⟩ := ownership_counted calls few
  obtain ⟨exact, _⟩ := ownership_counted (calls ++ more) few'
  constructor
  · exact gone ⟨0, 0⟩ (by decide) (by decide) more few'
  · exact exact.serves ⟨0, 1⟩ 8 (by decide) (by decide)

end BranchCutPrice
