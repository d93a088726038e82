import BranchCutPrice.Proofs.Careers

/-!
The law of aging. The age of an entry is the number of useless verdicts in its career since the
last useful one. It stays within the age limit, and an entry leaves a pool in a scan just when
that scan takes it beyond the limit.
-/

namespace BranchCutPrice

open BranchCutPrice.Action

variable {kind : Kind} {α : Type}

/-! ### Objects that are still there -/

namespace Registry

variable {registry registry' registry'' : Registry kind α} {handle : Handle kind}

/-- What one registry still has is the same in another one. -/
def Within (registry' registry : Registry kind α) : Prop :=
  ∀ handle item, registry'.get handle = .ok item → registry.get handle = .ok item

theorem Within.rfl : registry.Within registry := fun _ _ got => got

theorem Within.trans (second : registry''.Within registry') (first : registry'.Within registry) :
    registry''.Within registry := fun handle item got => first handle item (second handle item got)

theorem within_release {freed : Option α}
    (released : registry.release handle = .ok (freed, registry')) :
    registry'.Within registry := by
  intro other item got
  obtain ⟨object, found, ⟨_, _, rfl⟩ | ⟨_, _, rfl⟩⟩ := release_ok released
  · rw [get_erase] at got
    split at got
    · cases got
    · exact got
  · rw [get_set found] at got
    split at got
    · rename_i same
      rw [same, get_named found]
      exact got
    · exact got

theorem within_capture (captured : registry.capture handle = .ok registry') :
    registry'.Within registry := by
  intro other item got
  rw [← (get_capture captured other).1]
  exact got

end Registry

/-! ### Examinations -/

/-- What an entry shows of its career. -/
def PoolEntry.gist (entry : PoolEntry kind) : Handle kind × Nat × Option Nat :=
  (entry.handle, entry.age, entry.processed)

def Career.gist (career : Career kind) : Handle kind × Nat × Option Nat :=
  (career.handle, career.streak, career.checked)

/-- The entries of a pool stand in the order of the careers, and their ages are the numbers of
useless verdicts in a row. -/
def Pool.Tracks (pool : Pool kind α) (careers : List (Career kind)) : Prop :=
  pool.entries.toList.map PoolEntry.gist = careers.map Career.gist

namespace Pool.Tracks

variable {pool pool' : Pool kind α} {careers : List (Career kind)} {position : Nat}
  {entry : PoolEntry kind}

theorem length (tracks : pool.Tracks careers) : pool.entries.size = careers.length := by
  rw [← Array.length_toList, ← List.length_map PoolEntry.gist, tracks, List.length_map]

theorem look (tracks : pool.Tracks careers) (i : Nat) :
    pool.entries[i]?.map PoolEntry.gist = careers[i]?.map Career.gist := by
  rw [← Array.getElem?_toList, ← List.getElem?_map, tracks, List.getElem?_map]

theorem of_look (look : ∀ i : Nat, pool.entries[i]?.map PoolEntry.gist =
    careers[i]?.map Career.gist) : pool.Tracks careers := by
  apply List.ext_getElem?
  intro i
  rw [List.getElem?_map, List.getElem?_map, Array.getElem?_toList]
  exact look i

theorem career_of_entry (tracks : pool.Tracks careers)
    (found : pool.entries[position]? = some entry) :
    ∃ career, careers[position]? = some career ∧ entry.gist = career.gist := by
  have same := tracks.look position
  rw [found] at same
  obtain ⟨career, there, gist⟩ := Option.map_eq_some_iff.1 same.symm
  exact ⟨career, there, gist.symm⟩

theorem entry_of_career (tracks : pool.Tracks careers) {career : Career kind}
    (there : careers[position]? = some career) :
    ∃ entry, pool.entries[position]? = some entry ∧ entry.handle = career.handle ∧
      entry.age = career.streak ∧ entry.processed = career.checked := by
  have same := tracks.look position
  rw [there] at same
  obtain ⟨entry, found, gist⟩ := Option.map_eq_some_iff.1 same
  exact ⟨entry, found, by simpa [PoolEntry.gist, Career.gist] using gist⟩

/-- Only the entries matter. -/
theorem of_entries (tracks : pool.Tracks careers) (same : pool'.entries = pool.entries) :
    pool'.Tracks careers := by
  unfold Tracks
  rw [same]
  exact tracks

/-- The entry at a position changes, and so does the career there. -/
theorem amend (tracks : pool.Tracks careers) (found : pool.entries[position]? = some entry)
    {f : PoolEntry kind → PoolEntry kind} {career : Career kind}
    (gist : (f entry).gist = career.gist) :
    (pool.amend position f).Tracks (careers.set position career) := by
  obtain ⟨_, there, _⟩ := tracks.career_of_entry found
  apply of_look
  intro i
  rw [getElem?_amend, List.getElem?_set]
  split
  · rename_i here
    subst here
    rw [if_pos (List.getElem?_eq_some_iff.1 there).1, found]
    exact congrArg some gist
  · exact tracks.look i

/-- The career at a position changes, but not in what its entry shows. -/
theorem resume (tracks : pool.Tracks careers) {career other : Career kind}
    (there : careers[position]? = some career) (gist : other.gist = career.gist) :
    pool.Tracks (careers.set position other) := by
  apply of_look
  intro i
  rw [List.getElem?_set]
  split
  · rename_i here
    subst here
    rw [if_pos (List.getElem?_eq_some_iff.1 there).1, tracks.look, there]
    exact congrArg some gist.symm
  · exact tracks.look i

/-- The entry at a position is taken out, and so is the career there. -/
theorem detach (tracks : pool.Tracks careers) (found : pool.entries[position]? = some entry) :
    (pool.detach position entry).Tracks (swapOut careers position) := by
  have inside := (Array.getElem?_eq_some_iff.1 found).1
  have length := tracks.length
  apply of_look
  intro i
  rw [getElem?_detach found, getElem?_swapOut (by omega), length]
  split
  · rfl
  · split
    · rw [Option.map_map]
      exact tracks.look _
    · exact tracks.look i

end Pool.Tracks

namespace Stock

variable {s s' : Stock kind α} {careers : List (Career kind)} {position : Nat}
  {solution : Nat} {check : Handle kind → α → Verdict}

/-- At most one object is gone after a removal. -/
theorem removeAt_within (position : Nat) :
    (removeAt position).Reaches s fun s' => s'.registry.Within s.registry := by
  unfold Reaches removeAt
  rw [ensures_bind, ensures_get]
  cases s.pool.entries[position]? with
  | none => exact Registry.Within.rfl
  | some entry =>
    rw [ensures_bind, ensures_modifyPool]
    apply ensures_change.2
    constructor
    · intro s' changed
      cases released : s.registry.release entry.handle with
      | error e => simp [released, bind, Except.bind] at changed
      | ok outcome =>
        simp only [released, bind, Except.bind] at changed
        cases changed
        exact Registry.within_release released
    · intro _ _
      exact Registry.Within.rfl

theorem removeAt_tracks (tracks : s.pool.Tracks careers) {career : Career kind}
    (there : careers[position]? = some career) :
    (removeAt position).Reaches s fun s' => s'.pool.Tracks (swapOut careers position) ∧
      s'.pool.entries.size = s.pool.entries.size - 1 ∧ s'.pool.ageLimit = s.pool.ageLimit ∧
      s'.registry.Within s.registry := by
  obtain ⟨entry, found, _⟩ := tracks.entry_of_career there
  have detached := removeAt_pool (s := s) position
  rw [found] at detached
  have removed (s' : Stock kind α)
      (reached : s'.pool = s.pool.detach position entry ∧ s'.registry.Within s.registry) :
      s'.pool.Tracks (swapOut careers position) ∧
        s'.pool.entries.size = s.pool.entries.size - 1 ∧ s'.pool.ageLimit = s.pool.ageLimit ∧
        s'.registry.Within s.registry := by
    obtain ⟨pool, registry⟩ := reached
    rw [pool]
    exact ⟨tracks.detach found, Pool.size_detach _ _ _, Pool.ageLimit_detach _ _ _, registry⟩
  exact Reaches.mono (detached.and (removeAt_within position)) removed

/-- The career at a position went on. Its entry stays, or is taken out if it was useless too many
times in a row. -/
structure Judges (s s' : Stock kind α) (careers : List (Career kind)) (position : Nat)
    (judged : Career kind) : Prop where
  limit : s'.pool.ageLimit = s.pool.ageLimit
  registry : s'.registry.Within s.registry
  outcome :
    judged.streak ≤ s.pool.ageLimit ∧ s'.pool.entries.size = s.pool.entries.size ∧
      s'.pool.Tracks (careers.set position judged) ∨
    s.pool.ageLimit < judged.streak ∧ s'.pool.entries.size < s.pool.entries.size ∧
      s'.pool.Tracks (swapOut careers position)

/-- Marking the entry before does not count. -/
theorem Judges.of_marked {pool : Pool kind α} {marked judged : Career kind}
    (judges : Judges ⟨pool, s.registry⟩ s' (careers.set position marked) position judged)
    (limit : pool.ageLimit = s.pool.ageLimit)
    (size : pool.entries.size = s.pool.entries.size) : Judges s s' careers position judged := by
  obtain ⟨limit', registry, outcome⟩ := judges
  rw [List.set_set, swapOut_set, limit, size] at outcome
  exact ⟨limit'.trans limit, registry, outcome⟩

/-- A loaded entry is left as it is. -/
theorem judges_loaded (tracks : s.pool.Tracks careers) {career : Career kind}
    (there : careers[position]? = some career) (checked : career.checked = some solution)
    (young : career.streak ≤ s.pool.ageLimit) :
    Judges s s careers position (career.judge solution .loaded) := by
  have same : (career.judge solution .loaded).gist = career.gist := by
    rw [Career.gist, Career.gist, Career.streak_loaded, checked]
    rfl
  refine ⟨rfl, .rfl, .inl ⟨?_, rfl, tracks.resume there same⟩⟩
  rw [Career.streak_loaded]
  exact young

theorem judges_useful (tracks : s.pool.Tracks careers) {career : Career kind}
    (there : careers[position]? = some career) (checked : career.checked = some solution)
    (score : Float) :
    Judges s (s.aged position 0) careers position (career.judge solution (.useful score)) := by
  let renew (old : PoolEntry kind) : PoolEntry kind := { old with age := 0 }
  obtain ⟨entry, found, handle, _, processed⟩ := tracks.entry_of_career there
  have gist : (renew entry).gist = (career.judge solution (.useful score)).gist := by
    rw [PoolEntry.gist, Career.gist, Career.streak_useful]
    exact congrArg₂ (fun handle checked => (handle, 0, checked)) handle (processed.trans checked)
  refine ⟨rfl, .rfl, .inl ⟨?_, Pool.size_amend _ _ _, tracks.amend found gist⟩⟩
  rw [Career.streak_useful]
  exact Nat.zero_le _

theorem grow_judges (tracks : s.pool.Tracks careers) {career : Career kind}
    (there : careers[position]? = some career) (checked : career.checked = some solution)
    {entry : PoolEntry kind} (age : entry.age = career.streak) :
    (grow position entry).Yields s fun _ s' =>
      Judges s s' careers position (career.judge solution .useless) := by
  let older (old : PoolEntry kind) : PoolEntry kind := { old with age := entry.age + 1 }
  let judged := career.judge solution .useless
  obtain ⟨current, found, handle, _, processed⟩ := tracks.entry_of_career there
  have gist : (older current).gist = judged.gist := by
    rw [PoolEntry.gist, Career.gist, Career.streak_useless, ← age]
    exact congrArg₂ (fun handle checked => (handle, entry.age + 1, checked)) handle
      (processed.trans checked)
  have aged : (s.aged position (entry.age + 1)).pool.Tracks (careers.set position judged) :=
    tracks.amend found gist
  have size : (s.aged position (entry.age + 1)).pool.entries.size = s.pool.entries.size :=
    Pool.size_amend _ _ _
  have inside := (Array.getElem?_eq_some_iff.1 found).1
  have there : (careers.set position judged)[position]? = some judged :=
    List.getElem?_set_self (tracks.length ▸ inside)
  apply ensures_grow
  · intro young
    refine ⟨rfl, .rfl, .inl ⟨?_, size, aged⟩⟩
    rw [Career.streak_useless, ← age]
    exact young
  · intro beyond
    apply (removeAt_tracks aged there).yields
    intro _ s' removed
    obtain ⟨tracks', size', limit, registry⟩ := removed
    rw [swapOut_set] at tracks'
    refine ⟨limit, registry, .inr ⟨?_, ?_, tracks'⟩⟩
    · rw [Career.streak_useless, ← age]
      exact beyond
    · change s'.pool.entries.size < _
      omega

/-- An entry that was checked already is passed over. Another one gets a verdict. -/
theorem examine_judges (tracks : s.pool.Tracks careers)
    (within : ∀ career ∈ careers, career.streak ≤ s.pool.ageLimit)
    (bound : position < s.pool.entries.size) :
    (examine solution check position).Yields s fun found s' =>
      ∃ career, careers[position]? = some career ∧
        (career.checked = some solution ∧ found = (none, position + 1) ∧ s' = s ∨
          career.checked ≠ some solution ∧ ∃ item, s.registry.get career.handle = .ok item ∧
            found.1 = some (career.handle, check career.handle item) ∧
            Judges s s' careers position
              (career.judge solution (check career.handle item))) := by
  have inside : position < careers.length := tracks.length ▸ bound
  let career := careers[position]
  have there : careers[position]? = some career := List.getElem?_eq_getElem inside
  have young := within career (List.mem_of_getElem? there)
  obtain ⟨entry, found, handle, age, checked⟩ := tracks.entry_of_career there
  let mark (old : PoolEntry kind) : PoolEntry kind := { old with processed := some solution }
  let marked : Career kind := { career with checked := some solution }
  have gist : (mark entry).gist = marked.gist :=
    congrArg₂ (fun handle age => (handle, age, some solution)) handle age
  have tracks' : (s.marked solution position).pool.Tracks (careers.set position marked) :=
    (tracks.amend found gist).of_entries rfl
  have here : (careers.set position marked)[position]? = some marked :=
    List.getElem?_set_self inside
  have size : (s.marked solution position).pool.entries.size = s.pool.entries.size :=
    Pool.size_amend s.pool position mark
  apply ensures_examine found
  · intro before
    exact ⟨career, there, .inl ⟨checked.symm.trans before, rfl, rfl⟩⟩
  · intro _ _ _
    trivial
  · intro fresh item got
    rw [checked] at fresh
    rw [handle] at got ⊢
    have ends {verdict : Verdict} (judged : check career.handle item = verdict)
        {s' : Stock kind α} (judges : Judges (s.marked solution position) s'
          (careers.set position marked) position (marked.judge solution verdict)) :
        some (career.handle, verdict) = some (career.handle, check career.handle item) ∧
          Judges s s' careers position (career.judge solution (check career.handle item)) := by
      rw [judged]
      exact ⟨rfl, judges.of_marked rfl size⟩
    cases judged : check career.handle item with
    | loaded =>
      exact ⟨career, there, .inr ⟨fresh, item, got,
        ends judged (judges_loaded tracks' here rfl young)⟩⟩
    | useful score =>
      exact ⟨career, there, .inr ⟨fresh, item, got,
        ends judged (judges_useful tracks' here rfl score)⟩⟩
    | useless =>
      apply (grow_judges tracks' here rfl age).yields
      intro _ _ judges
      exact ⟨career, there, .inr ⟨fresh, item, got, ends judged judges⟩⟩

end Stock

/-! ### Careers after a scan -/

/-- The career of an entry after a scan, if it stays. What the scan asked about an entry is known
by its serial number. -/
def Career.scanned (registry : Registry kind α) (solution : Nat)
    (met : Nat → Handle kind → α → Verdict) (career : Career kind) : Career kind :=
  if career.checked = some solution then career
  else match registry.get career.handle with
    | .ok item => career.judge solution (met career.serial career.handle item)
    | .error _ => career

namespace Career

variable {registry : Registry kind α} {solution : Nat} {met : Nat → Handle kind → α → Verdict}
  {career : Career kind}

theorem scanned_before (before : career.checked = some solution) :
    career.scanned registry solution met = career :=
  if_pos before

theorem scanned_now {item : α} (fresh : career.checked ≠ some solution)
    (got : registry.get career.handle = .ok item) :
    career.scanned registry solution met =
      career.judge solution (met career.serial career.handle item) := by
  unfold scanned
  rw [if_neg fresh, got]

@[simp]
theorem serial_scanned : (career.scanned registry solution met).serial = career.serial := by
  unfold scanned
  split
  · rfl
  · split <;> rfl

/-- A scan adds at most one to a number of useless verdicts. -/
theorem streak_scanned_le :
    (career.scanned registry solution met).streak ≤ career.streak + 1 := by
  unfold scanned
  split
  · exact Nat.le_succ _
  · split
    · rename_i item _
      cases met career.serial career.handle item with
      | loaded => simp
      | useful => simp
      | useless => simp
    · exact Nat.le_succ _

end Career

/-- The careers of the entries that were not checked against a solution. -/
def pending (solution : Nat) (careers : List (Career kind)) : List (Career kind) :=
  careers.filter (·.checked ≠ some solution)

/-- The careers of the entries that a scan leaves: all that are not too old, each with the
verdict on its entry. -/
def remaining (registry : Registry kind α) (solution limit : Nat)
    (met : Nat → Handle kind → α → Verdict) (careers : List (Career kind)) :
    List (Career kind) :=
  (careers.map (Career.scanned registry solution met)).filter (·.streak ≤ limit)

/-- Every entry that is not checked yet has an object. -/
def Checkable (registry : Registry kind α) (solution : Nat) (careers : List (Career kind)) : Prop :=
  ∀ career ∈ careers, career.checked ≠ some solution →
    ∃ item, registry.get career.handle = .ok item

section Remaining

variable {registry : Registry kind α} {solution limit position : Nat}
  {met met' : Nat → Handle kind → α → Verdict} {careers : List (Career kind)}
  {career : Career kind}

theorem mem_pending :
    career ∈ pending solution careers ↔ career ∈ careers ∧ career.checked ≠ some solution := by
  unfold pending
  rw [List.mem_filter, decide_eq_true_iff]

/-- A career that gets a verdict is not pending any more, whether its entry stays or not. -/
theorem pending_judged {judged : Career kind} (there : careers[position]? = some career)
    (fresh : career.checked ≠ some solution) (checked : judged.checked = some solution) :
    (pending solution careers).Perm
        ([career] ++ pending solution (careers.set position judged)) ∧
      (pending solution careers).Perm
        ([career] ++ pending solution (swapOut careers position)) := by
  have inside := (List.getElem?_eq_some_iff.1 there).1
  have split : (pending solution careers).Perm
      ([career] ++ pending solution (swapOut careers position)) := by
    have kept := (swapOut_perm there).symm.filter (·.checked ≠ some solution)
    rw [List.filter_cons_of_pos (by simpa using fresh)] at kept
    exact kept
  have stays : (pending solution (careers.set position judged)).Perm
      (pending solution (swapOut careers position)) := by
    have kept := (set_perm_swapOut inside judged).filter (·.checked ≠ some solution)
    rw [List.filter_cons_of_neg (by simpa using checked)] at kept
    exact kept
  exact ⟨split.trans (stays.symm.cons career), split⟩

theorem mem_remaining : career ∈ remaining registry solution limit met careers ↔
    ∃ old ∈ careers, old.scanned registry solution met = career ∧ career.streak ≤ limit := by
  unfold remaining
  rw [List.mem_filter, List.mem_map, decide_eq_true_iff]
  constructor
  · rintro ⟨⟨old, member, scanned⟩, young⟩
    exact ⟨old, member, scanned, young⟩
  · rintro ⟨old, member, scanned, young⟩
    exact ⟨⟨old, member, scanned⟩, young⟩

/-- Only what is asked about unchecked entries matters. -/
theorem remaining_congr
    (same : ∀ career ∈ pending solution careers, met career.serial = met' career.serial) :
    remaining registry solution limit met careers =
      remaining registry solution limit met' careers := by
  unfold remaining
  congr 1
  apply List.map_congr_left
  intro career member
  by_cases before : career.checked = some solution
  · rw [Career.scanned_before before, Career.scanned_before before]
  · unfold Career.scanned
    rw [same career (mem_pending.2 ⟨member, before⟩)]

theorem remaining_of_checked (within : ∀ career ∈ careers, career.streak ≤ limit)
    (checked : ∀ career ∈ careers, career.checked = some solution) :
    remaining registry solution limit met careers = careers := by
  unfold remaining
  rw [List.map_congr_left fun career member => Career.scanned_before (checked career member),
    List.map_id', List.filter_eq_self]
  exact fun career member => decide_eq_true (within career member)

/-- The career at a position ends or goes on by itself. -/
theorem remaining_perm (registry : Registry kind α) (solution limit : Nat)
    (met : Nat → Handle kind → α → Verdict) (there : careers[position]? = some career) :
    (remaining registry solution limit met careers).Perm
      (remaining registry solution limit met [career] ++
        remaining registry solution limit met (swapOut careers position)) := by
  have split := ((swapOut_perm there).symm.map (Career.scanned registry solution met)).filter
    fun career => career.streak ≤ limit
  unfold remaining
  rw [← List.filter_append, ← List.map_append]
  exact split

variable {item : α}

/-- The verdict of this scan is not given again. -/
theorem remaining_kept (there : careers[position]? = some career)
    (fresh : career.checked ≠ some solution) (got : registry.get career.handle = .ok item) :
    (remaining registry solution limit met (careers.set position
      (career.judge solution (met career.serial career.handle item)))).Perm
        (remaining registry solution limit met careers) := by
  let judged := career.judge solution (met career.serial career.handle item)
  have inside := (List.getElem?_eq_some_iff.1 there).1
  have there' : (careers.set position judged)[position]? = some judged :=
    List.getElem?_set_self inside
  have same : remaining registry solution limit met [judged] =
      remaining registry solution limit met [career] := by
    unfold remaining
    rw [List.map_singleton, List.map_singleton, Career.scanned_now fresh got,
      Career.scanned_before rfl]
  have kept := remaining_perm registry solution limit met there'
  rw [swapOut_set, same] at kept
  exact kept.trans (remaining_perm registry solution limit met there).symm

theorem remaining_evicted (there : careers[position]? = some career)
    (fresh : career.checked ≠ some solution) (got : registry.get career.handle = .ok item)
    (beyond : limit < (career.judge solution (met career.serial career.handle item)).streak) :
    (remaining registry solution limit met (swapOut careers position)).Perm
      (remaining registry solution limit met careers) := by
  have none : remaining registry solution limit met [career] = [] := by
    unfold remaining
    rw [List.map_singleton, Career.scanned_now fresh got,
      List.filter_cons_of_neg (by simpa using beyond), List.filter_nil]
  have split := remaining_perm registry solution limit met there
  rw [none] at split
  exact split.symm

theorem Checkable.of_swapOut (there : careers[position]? = some career)
    (got : registry.get career.handle = .ok item)
    (others : Checkable registry solution (swapOut careers position)) :
    Checkable registry solution careers := by
  intro other member fresh
  obtain rfl | member := List.mem_cons.1 ((swapOut_perm there).mem_iff.2 member)
  · exact ⟨item, got⟩
  · exact others other member fresh

end Remaining

/-! ### Scans -/

namespace Stock

variable {s s' : Stock kind α} {careers careers' : List (Career kind)} {position : Nat}
  {solution : Nat} {registry : Registry kind α} {met met' : Nat → Handle kind → α → Verdict}

/-- The careers that are written down after an examination. -/
theorem noted_eq {check : Handle kind → α → Verdict}
    {found : Option (Handle kind × Verdict) × Nat} {career : Career kind}
    (ended : (examine solution check position s).result = .ok found)
    (there : careers[position]? = some career) {verdict : Verdict}
    (given : found.1 = some (career.handle, verdict)) :
    noted solution position s (examine solution check position s) careers =
      if (examine solution check position s).state.pool.entries.size < s.pool.entries.size then
        swapOut careers position
      else careers.set position (career.judge solution verdict) := by
  have set : careers.modify position (·.judge solution verdict) =
      careers.set position (career.judge solution verdict) := by
    apply List.ext_getElem?
    intro i
    rw [List.getElem?_modify, List.getElem?_set]
    split
    · rename_i here
      subst here
      rw [there, if_pos (List.getElem?_eq_some_iff.1 there).1]
      rfl
    · simp
  obtain ⟨finding, next⟩ := found
  dsimp only at given
  subst given
  unfold noted
  rw [ended]
  dsimp only
  rw [set, swapOut_set]

/-- On the way of a scan: the careers written down are those of the entries, and what the scan
will leave is settled already. -/
structure Culling (registry : Registry kind α) (solution : Nat)
    (met : Nat → Handle kind → α → Verdict) (s s' : Stock kind α)
    (careers careers' : List (Career kind)) : Prop where
  limit : s'.pool.ageLimit = s.pool.ageLimit
  tracks : s'.pool.Tracks careers'
  within : ∀ career ∈ careers', career.streak ≤ s.pool.ageLimit
  part : s'.registry.Within registry
  kept : (remaining registry solution s.pool.ageLimit met careers').Perm
    (remaining registry solution s.pool.ageLimit met careers)
  checkable : Checkable registry solution careers' → Checkable registry solution careers

theorem Culling.trans {s'' : Stock kind α} {careers'' : List (Career kind)}
    (first : Culling registry solution met s s' careers careers')
    (second : Culling registry solution met s' s'' careers' careers'') :
    Culling registry solution met s s'' careers careers'' where
  limit := second.limit.trans first.limit
  tracks := second.tracks
  within := first.limit ▸ second.within
  part := second.part
  kept := (first.limit ▸ second.kept).trans first.kept
  checkable checkable := first.checkable (second.checkable checkable)

theorem Culling.congr (culling : Culling registry solution met s s' careers careers')
    (same : ∀ career ∈ pending solution careers, met career.serial = met' career.serial)
    (checked : ∀ career ∈ careers', career.checked = some solution) :
    Culling registry solution met' s s' careers careers' where
  limit := culling.limit
  tracks := culling.tracks
  within := culling.within
  part := culling.part
  kept := by
    have kept := culling.kept
    rw [remaining_congr same, remaining_of_checked culling.within checked] at kept
    rw [remaining_of_checked culling.within checked]
    exact kept
  checkable := culling.checkable

/-- One more examination passes an entry that was checked before, or it judges an entry, which
may be evicted. -/
theorem examine_culling (check : Handle kind → α → Verdict) (tracks : s.pool.Tracks careers)
    (within : ∀ career ∈ careers, career.streak ≤ s.pool.ageLimit)
    (part : s.registry.Within registry) (bound : position < s.pool.entries.size) :
    (examine solution check position).Yields s fun found s' =>
      let careers' := noted solution position s (examine solution check position s) careers
      found.1 = none ∧ s' = s ∧ careers' = careers ∨
        ∃ career verdict, found.1 = some (career.handle, verdict) ∧
          (pending solution careers).Perm (career :: pending solution careers') ∧
          (careers'.map Career.serial).Subperm (careers.map Career.serial) ∧
          ∀ met : Nat → Handle kind → α → Verdict, met career.serial = check →
            Culling registry solution met s s' careers careers' := by
  apply ((examine_judges tracks within bound).and
    (ensures_ran (examine solution check position) s)).yields
  rintro found s' ⟨⟨career, there, passed | judged⟩, ended, reached⟩
  · obtain ⟨_, rfl, rfl⟩ := passed
    refine .inl ⟨rfl, rfl, ?_⟩
    unfold noted
    rw [ended, reached, if_neg (Nat.lt_irrefl _)]
  · obtain ⟨fresh, item, got, given, judges⟩ := judged
    right
    rw [noted_eq ended there given, reached]
    have got := part _ _ got
    have inside := (List.getElem?_eq_some_iff.1 there).1
    have others {other : Career kind} (member : other ∈ swapOut careers position) :
        other.streak ≤ s.pool.ageLimit :=
      within other ((swapOut_perm there).mem_iff.1 (List.mem_cons_of_mem _ member))
    obtain ⟨kept, gone⟩ := pending_judged there fresh
      (show (career.judge solution (check career.handle item)).checked = some solution from rfl)
    have serials : ((swapOut careers position).map Career.serial).Subperm
        (careers.map Career.serial) :=
      (List.sublist_cons_self _ _).subperm.trans ((swapOut_perm there).map _).subperm
    obtain ⟨limit, registry', outcome⟩ := judges
    obtain ⟨young, same, tracks'⟩ | ⟨beyond, less, tracks'⟩ := outcome
    · rw [if_neg (Nat.not_lt.2 same.ge)]
      have members := set_perm_swapOut inside
        (career.judge solution (check career.handle item))
      refine ⟨career, _, given, kept, ?_, ?_⟩
      · exact ((members.map Career.serial).trans
          ((swapOut_perm there).map Career.serial)).subperm
      · rintro met rfl
        refine ⟨limit, tracks', fun other member => ?_, registry'.trans part,
          remaining_kept there fresh got, fun checkable => ?_⟩
        · obtain rfl | member := List.mem_cons.1 (members.mem_iff.1 member)
          · exact young
          · exact others member
        · exact .of_swapOut there got fun other member =>
            checkable other (members.mem_iff.2 (List.mem_cons_of_mem _ member))
    · rw [if_pos less]
      refine ⟨career, _, given, gone, serials, ?_⟩
      rintro met rfl
      exact ⟨limit, tracks', fun _ => others, registry'.trans part,
        remaining_evicted there fresh got beyond, .of_swapOut there got⟩

/-- The careers written down are still those of the entries. -/
theorem examine_tracks (check : Handle kind → α → Verdict) (tracks : s.pool.Tracks careers)
    (within : ∀ career ∈ careers, career.streak ≤ s.pool.ageLimit)
    (bound : position < s.pool.entries.size) :
    (examine solution check position).Yields s fun _ s' =>
      let careers' := noted solution position s (examine solution check position s) careers
      s'.pool.Tracks careers' ∧ ∀ career ∈ careers', career.streak ≤ s'.pool.ageLimit := by
  apply (examine_culling check tracks within .rfl bound).yields
  rintro found s' (⟨_, rfl, same⟩ | ⟨_, _, _, _, _, culls⟩)
  · dsimp only
    rw [same]
    exact ⟨tracks, within⟩
  · have culling := culls (fun _ => check) rfl
    have young := culling.within
    rw [← culling.limit] at young
    exact ⟨culling.tracks, young⟩

/-- The unchecked entries are asked about one after the other, from some turn on. -/
def Turns (solution asked : Nat) (careers : List (Career kind)) (turn : Nat → Nat) : Prop :=
  ((pending solution careers).map fun career => turn career.serial).Perm
    (List.range' asked (pending solution careers).length)

theorem Turns.nil {asked : Nat} {turn : Nat → Nat}
    (checked : ∀ career ∈ careers, career.checked = some solution) :
    Turns solution asked careers turn := by
  have none : pending solution careers = [] :=
    List.filter_eq_nil_iff.2 fun career member => by simpa using checked career member
  unfold Turns
  rw [none]
  exact .nil

/-- Another entry has its turn first. -/
theorem Turns.cons {asked : Nat} {turn : Nat → Nat} {career : Career kind}
    (turns : Turns solution (asked + 1) careers' turn)
    (split : (pending solution careers).Perm (career :: pending solution careers'))
    (distinct : (careers.map Career.serial).Nodup) :
    Turns solution asked careers (Function.update turn career.serial asked) ∧
      ∀ other ∈ pending solution careers', other.serial ≠ career.serial := by
  have serials : ((career :: pending solution careers').map Career.serial).Nodup :=
    (split.map Career.serial).nodup_iff.1 (distinct.sublist (List.filter_sublist.map _))
  rw [List.map_cons, List.nodup_cons] at serials
  have different : ∀ other ∈ pending solution careers', other.serial ≠ career.serial :=
    fun other member same => serials.1 (same ▸ List.mem_map_of_mem member)
  have kept : (pending solution careers').map
      (fun other => Function.update turn career.serial asked other.serial) =
        (pending solution careers').map fun other => turn other.serial :=
    List.map_congr_left fun other member => Function.update_of_ne (different other member) _ _
  refine ⟨?_, different⟩
  have others := List.Perm.cons asked turns
  rw [← kept, ← List.range'_succ] at others
  apply (split.map _).trans
  rw [split.length_eq, List.map_cons, Function.update_self]
  exact others

/-- Careers end in a scan as the law says, whatever was evicted and moved on the way. -/
theorem examineFrom_culling (check : Check kind α) (count asked : Nat)
    (scanning : Scanning s.pool solution position)
    (rest : position + count = s.pool.entries.size) (tracks : s.pool.Tracks careers)
    (within : ∀ career ∈ careers, career.streak ≤ s.pool.ageLimit)
    (distinct : (careers.map Career.serial).Nodup) (part : s.registry.Within registry) :
    (examineFrom solution check count asked position).Yields s fun _ s' => ∃ turn : Nat → Nat,
      Turns solution asked careers turn ∧
      Culling registry solution (fun serial => check (turn serial)) s s' careers
        (notedFrom solution check count asked position s careers) ∧
      ∀ career ∈ notedFrom solution check count asked position s careers,
        career.checked = some solution := by
  induction count generalizing s asked position careers with
  | zero =>
    have checked : ∀ career ∈ careers, career.checked = some solution := by
      intro career member
      obtain ⟨i, there⟩ := List.getElem?_of_mem member
      obtain ⟨entry, found, _, _, checked⟩ := tracks.entry_of_career there
      have inside := (Array.getElem?_eq_some_iff.1 found).1
      exact checked.symm.trans (scanning.swept i entry (by omega) found)
    exact ⟨fun _ => asked, .nil checked, ⟨rfl, tracks, within, part, .refl _, id⟩, checked⟩
  | succ count ih =>
    have bound : position < s.pool.entries.size := by omega
    unfold Yields examineFrom
    rw [ensures_bind]
    apply (((examine_culling (check asked) tracks within part bound).and
      (examine_scanning scanning (check asked) bound)).and
      (ensures_ran (examine solution (check asked) position) s)).yields
    rintro found s' ⟨⟨first, further, size⟩, ended, reached⟩
    have written : notedFrom solution check (count + 1) asked position s careers =
        notedFrom solution check count (asked + found.1.toList.length) found.2 s'
          (noted solution position s (examine solution (check asked) position s) careers) := by
      rw [notedFrom, ended, reached]
    rw [written, ensures_bind]
    dsimp only at first
    generalize noted solution position s (examine solution (check asked) position s) careers =
      careers' at first ⊢
    obtain ⟨none, rfl, rfl⟩ | ⟨career, verdict, given, split, serials, culls⟩ := first
    · rw [none]
      exact (ih asked further (by omega) tracks within distinct part).yields fun _ _ done => done
    · have distinct' : (careers'.map Career.serial).Nodup := by
        obtain ⟨kept, same, fewer⟩ := serials
        exact same.nodup_iff.1 (distinct.sublist fewer)
      have first := culls (fun _ => check asked) rfl
      have young := first.within
      rw [← first.limit] at young
      rw [given]
      apply (ih (asked + 1) further (by omega) first.tracks young distinct' first.part).yields
      rintro verdicts s'' ⟨turn, turns, second, checked⟩
      obtain ⟨turns', different⟩ := turns.cons split distinct
      have here := culls
        (fun serial => check (Function.update turn career.serial asked serial))
        (congrArg check (Function.update_self _ _ _))
      refine ⟨_, turns', here.trans (second.congr (fun other member => ?_) checked), checked⟩
      exact congrArg check (Function.update_of_ne (different other member) _ _).symm

theorem scan_culls {check : Check kind α} (consistent : s.pool.Consistent)
    (tracks : s.pool.Tracks careers)
    (within : ∀ career ∈ careers, career.streak ≤ s.pool.ageLimit)
    (distinct : (careers.map Career.serial).Nodup) :
    (scan solution check).Yields s fun _ s' => ∃ turn : Nat → Nat,
      Turns solution 0 careers turn ∧
      s'.pool.Tracks (notedScan solution check s careers) ∧
      s'.pool.ageLimit = s.pool.ageLimit ∧
      (notedScan solution check s careers).Perm
        (remaining s.registry solution s.pool.ageLimit (fun serial => check (turn serial))
          careers) ∧
      Checkable s.registry solution careers := by
  have scanning : Scanning (s.begun solution).pool solution (s.begun solution).pool.cursor :=
    (scanning_of_consistent consistent solution).stats _
  -- all entries are checked when the scan ends, and the law has nothing more to say of them
  have settled {met : Nat → Handle kind → α → Verdict} {s' : Stock kind α}
      {careers' : List (Career kind)}
      (swept : Culling s.registry solution met (s.begun solution) s' careers careers' ∧
        ∀ career ∈ careers', career.checked = some solution) :
      s'.pool.Tracks careers' ∧ s'.pool.ageLimit = s.pool.ageLimit ∧
        careers'.Perm (remaining s.registry solution s.pool.ageLimit met careers) ∧
        Checkable s.registry solution careers := by
    obtain ⟨culling, checked⟩ := swept
    have kept := culling.kept
    rw [remaining_of_checked culling.within checked] at kept
    exact ⟨culling.tracks, culling.limit, kept,
      culling.checkable fun career member fresh => absurd (checked career member) fresh⟩
  have culling := examineFrom_culling (s := s.begun solution) check _ 0 scanning
    (Nat.add_sub_cancel' scanning.consistent.cursor) tracks within distinct .rfl
  apply ensures_scan
  · intro _ _ _ _
    trivial
  · intro _ idle
    -- no examination is left, as after a scan
    have none : (s.begun solution).pool.entries.size - (s.begun solution).pool.cursor = 0 :=
      Nat.sub_eq_zero_of_le idle
    unfold notedScan
    dsimp only
    rw [none] at culling ⊢
    obtain ⟨turn, turns, swept⟩ := culling
    obtain ⟨tracks', others⟩ := settled swept
    exact ⟨turn, turns, tracks'.of_entries rfl, others⟩
  · intro _ _
    apply ensures_survey.2
    apply Ensures.yields culling
    rintro verdicts s' ⟨turn, turns, swept⟩
    obtain ⟨tracks', others⟩ := settled swept
    exact ⟨turn, turns, tracks'.of_entries rfl, others⟩

end Stock

end BranchCutPrice
