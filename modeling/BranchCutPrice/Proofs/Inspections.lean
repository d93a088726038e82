import BranchCutPrice.Proofs.Surveys

/-!
Scans to the letter. A scan judges each entry that was not checked against its solution once,
keeps the others as they are, evicts those that are useless once too often, and counts all of it.
The entries are compared as a multiset, as those that leave move others. All that is needed is
that the pool holds a use of an object for each entry that stores it.
-/

namespace BranchCutPrice

open BranchCutPrice.Action

variable {kind : Kind} {α : Type}

/-! ### What a scan is to do -/

namespace PoolEntry

/-- An entry wherever it stands. -/
def record (entry : PoolEntry kind) : PoolEntry kind :=
  { entry with position := 0 }

variable (verdict : Handle kind → Verdict) (solution limit : Nat) (entry : PoolEntry kind)

/-- The age after a verdict. -/
def judged : Verdict → Nat
  | .loaded => entry.age
  | .useful _ => 0
  | .useless => entry.age + 1

/-- What a scan makes of an entry that stays. -/
def scanned : PoolEntry kind :=
  if entry.processed = some solution then entry
  else { entry with processed := some solution, age := entry.judged (verdict entry.handle) }

/-- An unchecked entry that is found useless once too often. -/
def Doomed : Prop :=
  entry.processed ≠ some solution ∧ verdict entry.handle = .useless ∧ limit < entry.age + 1

instance : Decidable (entry.Doomed verdict solution limit) :=
  inferInstanceAs (Decidable (_ ∧ _ ∧ _))

variable {verdict solution limit entry}

theorem scanned_checked (checked : entry.processed = some solution) :
    entry.scanned verdict solution = entry :=
  if_pos checked

theorem scanned_fresh (fresh : entry.processed ≠ some solution) :
    entry.scanned verdict solution =
      { entry with processed := some solution, age := entry.judged (verdict entry.handle) } :=
  if_neg fresh

@[simp]
theorem handle_scanned : (entry.scanned verdict solution).handle = entry.handle := by
  unfold scanned
  split <;> rfl

theorem record_scanned :
    entry.record.scanned verdict solution = (entry.scanned verdict solution).record := by
  unfold scanned
  by_cases checked : entry.processed = some solution
  · rw [if_pos checked, if_pos (show entry.record.processed = some solution from checked)]
  · rw [if_neg checked, if_neg (show ¬entry.record.processed = some solution from checked)]
    rfl

theorem processed_scanned : (entry.scanned verdict solution).processed = some solution := by
  unfold scanned
  split
  · assumption
  · rfl

theorem not_doomed (checked : entry.processed = some solution) :
    ¬entry.Doomed verdict solution limit :=
  fun doomed => doomed.1 checked

end PoolEntry

section Accounts

variable (verdict : Handle kind → Verdict) (solution limit : Nat)
  (entries : Multiset (PoolEntry kind))

/-- The entries that are still to be checked. -/
def unchecked : Multiset (PoolEntry kind) :=
  entries.filter (·.processed ≠ some solution)

/-- The entries that a scan evicts. -/
def doomed : Multiset (PoolEntry kind) :=
  entries.filter (·.Doomed verdict solution limit)

/-- The entries that a scan leaves. -/
def survivors : Multiset (PoolEntry kind) :=
  (entries.filter (¬·.Doomed verdict solution limit)).map (·.scanned verdict solution)

/-- The verdicts that a scan gives. -/
def hearings : Multiset (Handle kind × Verdict) :=
  (unchecked solution entries).map fun entry => (entry.handle, verdict entry.handle)

variable {verdict solution limit entries} {entry : PoolEntry kind}

section Unchecked

variable (fresh : entry.processed ≠ some solution)
include fresh

theorem unchecked_cons :
    unchecked solution (entry ::ₘ entries) = entry ::ₘ unchecked solution entries :=
  Multiset.filter_cons_of_pos _ fresh

theorem hearings_cons : hearings verdict solution (entry ::ₘ entries) =
    (entry.handle, verdict entry.handle) ::ₘ hearings verdict solution entries := by
  unfold hearings
  rw [unchecked_cons fresh, Multiset.map_cons]

end Unchecked

section Checked

variable (checked : entry.processed = some solution)
include checked

theorem unchecked_checked :
    unchecked solution (entry ::ₘ entries) = unchecked solution entries :=
  Multiset.filter_cons_of_neg _ (not_not.2 checked)

theorem hearings_checked : hearings verdict solution (entry ::ₘ entries) =
    hearings verdict solution entries := by
  unfold hearings
  rw [unchecked_checked checked]

theorem doomed_checked : doomed verdict solution limit (entry ::ₘ entries) =
    doomed verdict solution limit entries :=
  Multiset.filter_cons_of_neg _ (PoolEntry.not_doomed checked)

end Checked

theorem survivors_spared (spared : ¬entry.Doomed verdict solution limit) :
    survivors verdict solution limit (entry ::ₘ entries) =
      entry.scanned verdict solution ::ₘ survivors verdict solution limit entries := by
  unfold survivors
  rw [Multiset.filter_cons_of_pos (p := (¬PoolEntry.Doomed verdict solution limit ·)) _ spared,
    Multiset.map_cons]

theorem survivors_doomed (gone : entry.Doomed verdict solution limit) :
    survivors verdict solution limit (entry ::ₘ entries) =
      survivors verdict solution limit entries := by
  unfold survivors
  rw [Multiset.filter_cons_of_neg (p := (¬PoolEntry.Doomed verdict solution limit ·)) _
    (not_not.2 gone)]

theorem doomed_spared (spared : ¬entry.Doomed verdict solution limit) :
    doomed verdict solution limit (entry ::ₘ entries) = doomed verdict solution limit entries :=
  Multiset.filter_cons_of_neg _ spared

theorem doomed_cons (gone : entry.Doomed verdict solution limit) :
    doomed verdict solution limit (entry ::ₘ entries) =
      entry ::ₘ doomed verdict solution limit entries :=
  Multiset.filter_cons_of_pos _ gone

section Done

variable (all : ∀ entry ∈ entries, entry.processed = some solution)
include all

theorem unchecked_done : unchecked solution entries = 0 :=
  Multiset.filter_eq_nil.2 fun entry member => not_not.2 (all entry member)

theorem hearings_done : hearings verdict solution entries = 0 := by
  unfold hearings
  rw [unchecked_done all, Multiset.map_zero]

theorem doomed_done : doomed verdict solution limit entries = 0 :=
  Multiset.filter_eq_nil.2 fun entry member => PoolEntry.not_doomed (all entry member)

theorem survivors_done : survivors verdict solution limit entries = entries := by
  unfold survivors
  rw [Multiset.filter_eq_self.2 fun entry member => PoolEntry.not_doomed (all entry member)]
  exact (Multiset.map_congr rfl fun entry member =>
    PoolEntry.scanned_checked (all entry member)).trans (Multiset.map_id' entries)

end Done

end Accounts

/-! ### The entries of a pool as a multiset -/

namespace Pool

/-- The entries, wherever they stand. -/
def records (pool : Pool kind α) : Multiset (PoolEntry kind) :=
  (pool.entries.toList.map PoolEntry.record : List (PoolEntry kind))

variable {pool : Pool kind α} {position : Nat} {entry : PoolEntry kind}

theorem handles_records (pool : Pool kind α) :
    pool.handles = pool.records.map PoolEntry.handle := by
  unfold handles records
  rw [Multiset.map_coe, List.map_map]
  rfl

theorem mem_records {record : PoolEntry kind} :
    record ∈ pool.records ↔ ∃ entry ∈ pool.entries, entry.record = record := by
  unfold records
  rw [Multiset.mem_coe, List.mem_map]
  simp only [Array.mem_toList_iff]

theorem records_detach (found : pool.entries[position]? = some entry) :
    pool.records = entry.record ::ₘ (pool.detach position entry).records := by
  have inside := (Array.getElem?_eq_some_iff.1 found).1
  have swapped : (pool.detach position entry).entries.toList.map PoolEntry.record =
      swapOut (pool.entries.toList.map PoolEntry.record) position := by
    apply List.ext_getElem?
    intro i
    rw [getElem?_swapOut (by simpa using inside), List.getElem?_map, Array.getElem?_toList,
      getElem?_detach found, List.getElem?_map, List.getElem?_map, Array.getElem?_toList,
      Array.getElem?_toList, List.length_map, Array.length_toList]
    split
    · rfl
    · split
      · rw [Option.map_map]
        rfl
      · rfl
  have there : (pool.entries.toList.map PoolEntry.record)[position]? = some entry.record := by
    rw [List.getElem?_map, Array.getElem?_toList, found]
    rfl
  unfold records
  rw [swapped, Multiset.cons_coe]
  exact Multiset.coe_eq_coe.2 (swapOut_perm there).symm

section Others

variable {rest : Multiset (PoolEntry kind)} (found : pool.entries[position]? = some entry)
  (records : pool.records = entry.record ::ₘ rest)
include found records

theorem records_others : (pool.detach position entry).records = rest :=
  (Multiset.cons_inj_right _).1 ((records_detach found).symm.trans records)

/-- Changing one entry leaves the others. -/
theorem records_amend (f : PoolEntry kind → PoolEntry kind) :
    (pool.amend position f).records = (f entry).record ::ₘ rest := by
  have inside := (Array.getElem?_eq_some_iff.1 found).1
  have there : (pool.amend position f).entries[position]? = some (f entry) :=
    getElem?_amend_self found f
  rw [records_detach there, ← records_others found records]
  congr 1
  unfold Pool.records
  congr 1
  -- what stood at the position does not matter to what is left
  apply List.ext_getElem?
  intro i
  rw [List.getElem?_map, List.getElem?_map, Array.getElem?_toList, Array.getElem?_toList,
    getElem?_detach there, getElem?_detach found, size_amend]
  split
  · rfl
  · by_cases here : i = position
    · rw [if_pos here, if_pos here, getElem?_amend, if_neg (by omega)]
    · rw [if_neg here, if_neg here, getElem?_amend, if_neg (Ne.symm here)]

end Others

theorem stats_detach (pool : Pool kind α) (position : Nat) (removed : PoolEntry kind) :
    (pool.detach position removed).stats = pool.stats := by
  unfold detach
  dsimp only
  split <;> rfl

end Pool

/-! ### Registries that still have what is stored -/

theorem Registry.users_pos {registry : Registry kind α} {handle : Handle kind}
    (used : 0 < registry.users handle) :
    ∃ object, registry.table.get? handle = some object ∧ object.uses = registry.users handle := by
  cases found : registry.table.get? handle with
  | some object => exact ⟨object, rfl, (users_of_found found).symm⟩
  | none =>
    rw [users_of_stale found] at used
    cases used

/-- A use can be released if there is one. -/
theorem Registry.release_used {registry : Registry kind α} {handle : Handle kind}
    (used : 0 < registry.users handle) :
    ∃ freed registry', registry.release handle = .ok (freed, registry') ∧
      ∀ other, registry'.users other + (if other = handle then 1 else 0) =
        registry.users other := by
  obtain ⟨object, found, uses⟩ := users_pos used
  by_cases last : object.uses = 1
  · refine ⟨_, _, release_last found last, fun other => ?_⟩
    rw [users_erase]
    split
    · rename_i same
      rw [same, ← uses, last]
    · rfl
  · refine ⟨_, _, release_shared found (by omega), fun other => ?_⟩
    rw [users_set found]
    split
    · rename_i same
      rw [same, ← uses]
      change object.uses - 1 + 1 = object.uses
      omega
    · rfl

/-- What a check says of an object that is still there. -/
def Registry.verdict (registry : Registry kind α) (check : Handle kind → α → Verdict)
    (handle : Handle kind) : Verdict :=
  match registry.get handle with
  | .ok item => check handle item
  | .error _ => .useless

namespace Stock

/-- Every object has at least as many users as the pool has entries for it. -/
def Covered (s : Stock kind α) : Prop :=
  ∀ handle, s.pool.handles.count handle ≤ s.registry.users handle

variable {s s' s'' : Stock kind α} {position next solution limit : Nat} {entry : PoolEntry kind}
  {check : Handle kind → α → Verdict} {verdict : Handle kind → Verdict}

/-- Handles that are not stored need no user. -/
theorem Covered.of_held
    (held : ∀ handle ∈ s.pool.handles, s.pool.handles.count handle ≤ s.registry.users handle) :
    s.Covered := by
  intro handle
  by_cases stored : handle ∈ s.pool.handles
  · exact held handle stored
  · rw [Multiset.count_eq_zero_of_notMem stored]
    exact Nat.zero_le _

theorem Covered.used (covered : s.Covered) (found : s.pool.entries[position]? = some entry) :
    0 < s.registry.users entry.handle := by
  exact Nat.lt_of_lt_of_le (Multiset.count_pos.2 (handle_mem found)) (covered entry.handle)

/-- The verdicts are those of the check on the objects stored in the pool. -/
def Heeds (s : Stock kind α) (check : Handle kind → α → Verdict)
    (verdict : Handle kind → Verdict) : Prop :=
  ∀ handle ∈ s.pool.handles, ∃ item, s.registry.get handle = .ok item ∧
    verdict handle = check handle item

theorem Covered.heeds (covered : s.Covered) (check : Handle kind → α → Verdict) :
    s.Heeds check (s.registry.verdict check) := by
  intro handle held
  have used : 0 < s.registry.users handle :=
    Nat.lt_of_lt_of_le (Multiset.count_pos.2 held) (covered handle)
  obtain ⟨object, found, _⟩ := Registry.users_pos used
  refine ⟨object.value, Registry.get_named found, ?_⟩
  unfold Registry.verdict
  rw [Registry.get_named found]

/-! ### Examinations -/

/-- On the way of a scan: nothing of what is to be done is lost or done twice. -/
structure Inspects (verdict : Handle kind → Verdict) (solution : Nat) (s : Stock kind α)
    (verdicts : List (Handle kind × Verdict)) (s' : Stock kind α) : Prop where
  limit : s'.pool.ageLimit = s.pool.ageLimit
  kept : survivors verdict solution s.pool.ageLimit s'.pool.records =
    survivors verdict solution s.pool.ageLimit s.pool.records
  given : hearings verdict solution s.pool.records =
    verdicts + hearings verdict solution s'.pool.records
  evicted : ∃ gone, doomed verdict solution s.pool.ageLimit s.pool.records =
      gone + doomed verdict solution s.pool.ageLimit s'.pool.records ∧
    s.pool.handles = gone.map PoolEntry.handle + s'.pool.handles ∧
    (∀ handle, s'.registry.users handle + (gone.map PoolEntry.handle).count handle =
      s.registry.users handle) ∧
    s'.pool.stats.evicted = s.pool.stats.evicted + gone.card
  within : s'.registry.Within s.registry
  checks : s'.pool.stats.checks = s.pool.stats.checks + verdicts.length
  found : s'.pool.stats.found = s.pool.stats.found

namespace Inspects

variable {verdicts more : List (Handle kind × Verdict)}

theorem refl (s : Stock kind α) : Inspects verdict solution s [] s where
  limit := rfl
  kept := rfl
  given := (zero_add _).symm
  evicted := ⟨0, (zero_add _).symm, (zero_add _).symm, fun _ => rfl, rfl⟩
  within := .rfl
  checks := rfl
  found := rfl

theorem trans (first : Inspects verdict solution s verdicts s')
    (second : Inspects verdict solution s' more s'') :
    Inspects verdict solution s (verdicts ++ more) s'' := by
  have limit := first.limit
  obtain ⟨gone, lost, handles, users, count⟩ := first.evicted
  obtain ⟨gone', lost', handles', users', count'⟩ := second.evicted
  have kept := second.kept
  rw [limit] at kept lost'
  refine ⟨second.limit.trans limit, kept.trans first.kept, ?_, ?_,
    second.within.trans first.within, ?_, second.found.trans first.found⟩
  · rw [first.given, second.given, ← Multiset.coe_add, add_assoc]
  · refine ⟨gone + gone', ?_, ?_, fun handle => ?_, ?_⟩
    · rw [lost, lost', add_assoc]
    · rw [handles, handles', Multiset.map_add, add_assoc]
    · rw [Multiset.map_add, Multiset.count_add, ← users handle, ← users' handle]
      omega
    · rw [count', count, Multiset.card_add, add_assoc]
  · rw [second.checks, first.checks, List.length_append, add_assoc]

theorem covered (inspects : Inspects verdict solution s verdicts s') (covered : s.Covered) :
    s'.Covered := by
  obtain ⟨gone, _, handles, users, _⟩ := inspects.evicted
  intro handle
  have before := covered handle
  rw [handles, Multiset.count_add, ← users handle] at before
  omega

theorem heeds (inspects : Inspects verdict solution s verdicts s') (covered : s.Covered)
    (heeds : s.Heeds check verdict) : s'.Heeds check verdict := by
  intro handle held
  obtain ⟨item, got, _⟩ := (inspects.covered covered).heeds check handle held
  have before : handle ∈ s.pool.handles := by
    obtain ⟨gone, _, handles, _⟩ := inspects.evicted
    rw [handles]
    exact Multiset.mem_add.2 (.inr held)
  obtain ⟨item', got', judged⟩ := heeds handle before
  cases got'.symm.trans (inspects.within handle item got)
  exact ⟨item, got, judged⟩

end Inspects

section Judged

variable {rest : Multiset (PoolEntry kind)}
  (records : s.pool.records = entry.record ::ₘ rest) (fresh : entry.processed ≠ some solution)
  (ageLimit : s'.pool.ageLimit = s.pool.ageLimit)
include records fresh ageLimit

/-- The entry stays, with its verdict taken down. -/
theorem Inspects.spare (spared : ¬entry.Doomed verdict solution s.pool.ageLimit)
    (after : s'.pool.records = (entry.scanned verdict solution).record ::ₘ rest)
    (registry : s'.registry = s.registry)
    (stats : s'.pool.stats = { s.pool.stats with checks := s.pool.stats.checks + 1 }) :
    Inspects verdict solution s [(entry.handle, verdict entry.handle)] s' := by
  have checked : (entry.scanned verdict solution).record.processed = some solution :=
    PoolEntry.processed_scanned
  have spared' : ¬entry.record.Doomed verdict solution s.pool.ageLimit := spared
  refine ⟨ageLimit, ?_, ?_, ⟨0, ?_, ?_, ?_, ?_⟩, ?_, ?_, ?_⟩
  · rw [records, after, survivors_spared spared', survivors_spared (PoolEntry.not_doomed checked),
      PoolEntry.scanned_checked checked, PoolEntry.record_scanned]
  · rw [records, after, hearings_checked checked,
      hearings_cons (show entry.record.processed ≠ some solution from fresh)]
    rfl
  · rw [records, after, doomed_checked checked, doomed_spared spared', zero_add]
  · have same : (entry.scanned verdict solution).record.handle = entry.record.handle :=
      PoolEntry.handle_scanned
    rw [Pool.handles_records, Pool.handles_records, records, after, Multiset.map_cons,
      Multiset.map_cons, Multiset.map_zero, zero_add, same]
  · intro handle
    rw [registry]
    rfl
  · rw [stats]
    rfl
  · rw [registry]
    exact .rfl
  · rw [stats]
    rfl
  · rw [stats]

/-- The entry is evicted, and its use is given back. -/
theorem Inspects.evict (gone : entry.Doomed verdict solution s.pool.ageLimit)
    (after : s'.pool.records = rest) (within : s'.registry.Within s.registry)
    (users : ∀ other, s'.registry.users other + (if other = entry.handle then 1 else 0) =
      s.registry.users other)
    (stats : s'.pool.stats = { s.pool.stats with
      checks := s.pool.stats.checks + 1
      evicted := s.pool.stats.evicted + 1 }) :
    Inspects verdict solution s [(entry.handle, verdict entry.handle)] s' := by
  have gone' : entry.record.Doomed verdict solution s.pool.ageLimit := gone
  refine ⟨ageLimit, ?_, ?_, ⟨{entry.record}, ?_, ?_, ?_, ?_⟩, within, ?_, ?_⟩
  · rw [records, after, survivors_doomed gone']
  · rw [records, after, hearings_cons (show entry.record.processed ≠ some solution from fresh)]
    rfl
  · rw [records, after, doomed_cons gone', Multiset.singleton_add]
  · rw [Pool.handles_records, Pool.handles_records, records, after, Multiset.map_cons,
      Multiset.map_singleton, Multiset.singleton_add]
  · intro other
    rw [Multiset.map_singleton, Multiset.count_singleton]
    exact users other
  · rw [stats]
    rfl
  · rw [stats]
    rfl
  · rw [stats]

end Judged

/-- Taking out an entry whose object has a user left. -/
theorem removeAt_used (found : s.pool.entries[position]? = some entry)
    (used : 0 < s.registry.users entry.handle) :
    (removeAt position).Ensures s
      (fun _ s' => s'.pool = s.pool.detach position entry ∧ s'.registry.Within s.registry ∧
        ∀ other, s'.registry.users other + (if other = entry.handle then 1 else 0) =
          s.registry.users other)
      (fun _ _ => False) := by
  obtain ⟨freed, registry, released, users⟩ := Registry.release_used used
  unfold removeAt
  rw [ensures_bind, ensures_get, found]
  dsimp only
  rw [ensures_bind, ensures_modifyPool]
  apply ensures_change.2
  simp only [released, bind, Except.bind, pure, Except.pure]
  refine ⟨fun s' changed => ?_, fun e refused => nomatch refused⟩
  cases changed
  exact ⟨rfl, Registry.within_release released, users⟩

/-- An entry that was found useless stays or is evicted. -/
theorem grow_inspects {current : PoolEntry kind} {rest : Multiset (PoolEntry kind)}
    (found : s.pool.entries[position]? = some current) (same : current.handle = entry.handle)
    (used : 0 < s.registry.users entry.handle)
    (records : s.pool.records = current.record ::ₘ rest) :
    (grow position entry).Ensures s
      (fun _ s' => s'.pool.ageLimit = s.pool.ageLimit ∧
        (s.pool.ageLimit < entry.age + 1 ∧ s'.pool.records = rest ∧
            s'.registry.Within s.registry ∧
            (∀ other, s'.registry.users other + (if other = entry.handle then 1 else 0) =
              s.registry.users other) ∧
            s'.pool.stats = { s.pool.stats with evicted := s.pool.stats.evicted + 1 } ∨
          ¬s.pool.ageLimit < entry.age + 1 ∧
            s'.pool.records = { current with age := entry.age + 1 }.record ::ₘ rest ∧
            s'.registry = s.registry ∧ s'.pool.stats = s.pool.stats))
      (fun _ _ => False) := by
  have here := entry_aged found (entry.age + 1)
  have aged : (s.aged position (entry.age + 1)).pool.records =
      { current with age := entry.age + 1 }.record ::ₘ rest :=
    Pool.records_amend found records _
  apply ensures_grow
  · intro young
    exact ⟨rfl, .inr ⟨not_lt.2 young, aged, rfl, rfl⟩⟩
  · intro beyond
    have used' : 0 < (s.aged position (entry.age + 1)).registry.users current.handle := same ▸ used
    apply (removeAt_used here used').imp
    · intro _ s' removed
      obtain ⟨pool, within, users⟩ := removed
      refine ⟨?_, .inl ⟨beyond, ?_, within, ?_, ?_⟩⟩
      · change s'.pool.ageLimit = _
        rw [pool, Pool.ageLimit_detach]
        rfl
      · change s'.pool.records = rest
        rw [pool]
        exact Pool.records_others here aged
      · rw [← same]
        exact users
      · change { s'.pool.stats with evicted := s'.pool.stats.evicted + 1 } = _
        rw [pool, Pool.stats_detach]
        rfl
    · intro _ _ no
      exact no

theorem examine_inspects (covered : s.Covered) (heeds : s.Heeds check verdict)
    (found : s.pool.entries[position]? = some entry) :
    (examine solution check position).Ensures s
      (fun found s' => Inspects verdict solution s found.1.toList s') (fun _ _ => False) := by
  have records := Pool.records_detach found
  have here := entry_marked found solution
  have after : (s.marked solution position).pool.records =
      { entry with processed := some solution }.record ::ₘ _ :=
    Pool.records_amend found records _
  obtain ⟨item, got, heard⟩ := heeds entry.handle (handle_mem found)
  apply ensures_examine found
  · intro _
    exact .refl s
  · intro _ e refused
    cases got.symm.trans refused
  · intro fresh item' got'
    cases got.symm.trans got'
    rw [← heard]
    have scanned : entry.scanned verdict solution = _ := PoolEntry.scanned_fresh fresh
    -- the record that the entry leaves is the one that it is to leave
    have spares {s' : Stock kind α} {left : PoolEntry kind}
        (spared : ¬entry.Doomed verdict solution s.pool.ageLimit)
        (limit : s'.pool.ageLimit = s.pool.ageLimit)
        (records' : s'.pool.records = left.record ::ₘ _)
        (same : left = entry.scanned verdict solution) (registry : s'.registry = s.registry)
        (stats : s'.pool.stats = { s.pool.stats with checks := s.pool.stats.checks + 1 }) :
        Inspects verdict solution s [(entry.handle, verdict entry.handle)] s' :=
      .spare records fresh limit spared (same ▸ records') registry stats
    cases judged : verdict entry.handle with
    | loaded =>
      rw [judged] at scanned spares
      have spared : ¬entry.Doomed verdict solution s.pool.ageLimit :=
        fun gone => nomatch judged.symm.trans gone.2.1
      exact spares spared rfl after scanned.symm rfl rfl
    | useful score =>
      rw [judged] at scanned spares
      have spared : ¬entry.Doomed verdict solution s.pool.ageLimit :=
        fun gone => nomatch judged.symm.trans gone.2.1
      have renewed := Pool.records_amend here after fun entry => { entry with age := 0 }
      exact spares spared rfl renewed scanned.symm rfl rfl
    | useless =>
      rw [judged] at scanned spares
      have used : 0 < (s.marked solution position).registry.users entry.handle :=
        covered.used found
      apply (grow_inspects here rfl used after).imp
      · intro next s' grown
        obtain ⟨limit, outcome⟩ := grown
        obtain ⟨beyond, left, within, users, stats⟩ | ⟨young, left, registry, stats⟩ := outcome
        · have gone : entry.Doomed verdict solution s.pool.ageLimit := ⟨fresh, judged, beyond⟩
          have inspects := Inspects.evict records fresh limit gone left within users stats
          rw [judged] at inspects
          exact inspects
        · exact spares (fun gone => young gone.2.2) limit left scanned.symm registry stats
      · intro _ _ no
        exact no

theorem examineFrom_inspects (covered : s.Covered) (heeds : s.Heeds check verdict)
    (remaining asked : Nat) (scanning : Scanning s.pool solution position)
    (rest : position + remaining = s.pool.entries.size) :
    (examineFrom solution (fun _ => check) remaining asked position).Ensures s
      (fun verdicts s' => Inspects verdict solution s verdicts s') (fun _ _ => False) := by
  induction remaining generalizing s asked position with
  | zero => exact .refl s
  | succ remaining ih =>
    obtain ⟨entry, found⟩ : ∃ entry, s.pool.entries[position]? = some entry :=
      ⟨_, Array.getElem?_eq_getElem (by omega)⟩
    have examined := (examine_scanning scanning check (by omega)).and
      (examine_inspects covered heeds found)
    unfold examineFrom
    rw [ensures_bind]
    apply examined.imp
    · intro found s' done
      obtain ⟨⟨further, count⟩, inspects⟩ := done
      rw [ensures_bind]
      apply (ih (inspects.covered covered) (inspects.heeds covered heeds) _ further
        (by omega)).imp
      · intro _ _ more
        exact inspects.trans more
      · intro _ _ no
        exact no
    · intro _ _ refused
      exact refused.2

/-- No examination is refused, however the check changes on the way. -/
theorem examineFrom_covered (covered : s.Covered) (check : Check kind α) (remaining asked : Nat)
    (scanning : Scanning s.pool solution position)
    (rest : position + remaining = s.pool.entries.size) :
    (examineFrom solution check remaining asked position).Ensures s (fun _ _ => True)
      (fun _ _ => False) := by
  induction remaining generalizing s asked position with
  | zero => trivial
  | succ remaining ih =>
    obtain ⟨entry, found⟩ : ∃ entry, s.pool.entries[position]? = some entry :=
      ⟨_, Array.getElem?_eq_getElem (by omega)⟩
    unfold examineFrom
    rw [ensures_bind]
    apply ((examine_scanning scanning (check asked) (by omega)).and
      (examine_inspects covered (covered.heeds (check asked)) found)).imp
    · rintro found s' ⟨⟨further, count⟩, inspects⟩
      rw [ensures_bind]
      exact ih (inspects.covered covered) _ further (by omega)
    · intro _ _ refused
      exact refused.2

/-! ### Scans -/

/-- What a scan comes to. -/
structure Inspected (verdict : Handle kind → Verdict) (solution : Nat) (s : Stock kind α)
    (survey : Survey kind) (s' : Stock kind α) : Prop where
  /-- Each entry that was not checked against the solution is checked once, and no other. -/
  given : (survey.verdicts : Multiset (Handle kind × Verdict)) =
    hearings verdict solution s.pool.records
  /-- The useful ones are handed over with their scores. -/
  useful : (survey.useful : Multiset (Handle kind × Float)) =
    (unchecked solution s.pool.records).filterMap fun entry =>
      match verdict entry.handle with
      | .useful score => some (entry.handle, score)
      | _ => none
  kept : s'.pool.records = survivors verdict solution s.pool.ageLimit s.pool.records
  checked : ∀ entry ∈ s'.pool.entries, entry.processed = some solution
  processed : s'.pool.processed = some solution
  /-- Every entry that is evicted gives one use back, and nothing else does. -/
  users : ∀ handle, s'.registry.users handle +
    ((doomed verdict solution s.pool.ageLimit s.pool.records).map PoolEntry.handle).count handle =
      s.registry.users handle
  within : s'.registry.Within s.registry
  checks : s'.pool.stats.checks =
    s.pool.stats.checks + (unchecked solution s.pool.records).card
  found : s'.pool.stats.found = s.pool.stats.found + survey.useful.length
  evicted : s'.pool.stats.evicted = s.pool.stats.evicted +
    (doomed verdict solution s.pool.ageLimit s.pool.records).card

theorem useful_eq {survey : Survey kind} {records : Multiset (PoolEntry kind)}
    (given : (survey.verdicts : Multiset (Handle kind × Verdict)) =
      hearings verdict solution records) :
    (survey.useful : Multiset (Handle kind × Float)) =
      (unchecked solution records).filterMap fun entry =>
        match verdict entry.handle with
        | .useful score => some (entry.handle, score)
        | _ => none := by
  unfold Survey.useful usefulScores
  rw [← Multiset.filterMap_coe, given]
  unfold hearings
  rw [Multiset.filterMap_map]
  rfl

/-- All entries were checked when the way of a scan ends. -/
theorem Inspects.inspected {survey : Survey kind}
    (inspects : Inspects verdict solution s survey.verdicts s')
    (all : ∀ entry ∈ s'.pool.entries, entry.processed = some solution) {pool : Pool kind α}
    (entries : pool.entries = s'.pool.entries) (processed : pool.processed = some solution)
    (stats : pool.stats =
      { s'.pool.stats with found := s'.pool.stats.found + survey.useful.length }) :
    Inspected verdict solution s survey ⟨pool, s'.registry⟩ := by
  have records : pool.records = s'.pool.records := by
    unfold Pool.records
    rw [entries]
  have done : ∀ record ∈ s'.pool.records, record.processed = some solution := by
    intro record member
    obtain ⟨entry, there, rfl⟩ := Pool.mem_records.1 member
    exact all entry there
  have given := inspects.given
  have kept := inspects.kept
  obtain ⟨gone, lost, _, users, evicted⟩ := inspects.evicted
  rw [hearings_done done, add_zero] at given
  rw [survivors_done done] at kept
  rw [doomed_done done, add_zero] at lost
  have heard : survey.verdicts.length = (unchecked solution s.pool.records).card := by
    have cards := congrArg Multiset.card given
    rw [hearings, Multiset.card_map, Multiset.coe_card] at cards
    exact cards.symm
  refine ⟨given.symm, useful_eq given.symm, records.trans kept, ?_, processed, ?_,
    inspects.within, ?_, ?_, ?_⟩
  · intro entry member
    exact all entry (entries ▸ member)
  · rw [lost]
    exact users
  · change pool.stats.checks = _
    rw [stats, ← heard]
    exact inspects.checks
  · change pool.stats.found = _
    rw [stats, ← inspects.found]
  · change pool.stats.evicted = _
    rw [stats, lost]
    exact evicted

theorem survey_inspected (covered : s.Covered) (heeds : s.Heeds check verdict)
    (scanning : Scanning s.pool solution s.pool.cursor) :
    (survey solution fun _ => check).Ensures s
      (fun survey s' => Inspected verdict solution s survey s') (fun _ _ => False) := by
  have counted : Scanning s.counted.pool solution s.pool.cursor := scanning.stats _
  have whole : s.pool.cursor + (s.pool.entries.size - s.pool.cursor) =
      s.counted.pool.entries.size := Nat.add_sub_cancel' scanning.consistent.cursor
  have covered' : s.counted.Covered := covered
  have heeds' : s.counted.Heeds check verdict := heeds
  apply ensures_survey.2
  apply ((examineFrom_inspects covered' heeds' _ 0 counted whole).and
    (examineFrom_scanning (fun _ => check) _ 0 counted whole)).imp
  · intro verdicts s' done
    obtain ⟨inspects, swept⟩ := done
    -- the counter of calls is not looked at
    have inspected : Inspected verdict solution s.counted
        ⟨if (usefulScores verdicts).isEmpty then .nothing else .found, verdicts⟩
        ⟨{ s'.pool with
          processed := some solution
          cursor := s'.pool.entries.size
          stats := { s'.pool.stats with
            found := s'.pool.stats.found + (usefulScores verdicts).length } }, s'.registry⟩ :=
      inspects.inspected (fun _ => swept.checked) rfl rfl rfl
    exact ⟨inspected.given, inspected.useful, inspected.kept, inspected.checked, rfl,
      inspected.users, inspected.within, inspected.checks, inspected.found, inspected.evicted⟩
  · intro _ _ refused
    exact refused.1

/-- A scan is refused for an older solution, and then changes nothing. Otherwise it does to every
entry what it is to do. -/
theorem scan_inspected (covered : s.Covered) (heeds : s.Heeds check verdict)
    (consistent : s.pool.Consistent) :
    (scan solution fun _ => check).Ensures s
      (fun survey s' => (∀ last, s.pool.processed = some last → last ≤ solution) ∧
        Inspected verdict solution s survey s')
      (fun _ s' => s' = s ∧ ∃ last, s.pool.processed = some last ∧ solution < last) := by
  apply ensures_scan
  · intro _ last processed late
    exact ⟨rfl, last, processed, late⟩
  · intro recent idle
    have nothing : Inspects verdict solution s (Survey.mk .notRun []).verdicts s := .refl s
    exact ⟨recent, nothing.inspected (fun _ => checked_of_idle consistent idle) rfl rfl rfl⟩
  · intro recent _
    have covered' : (s.aimed solution).Covered := covered
    have scanning := scanning_of_consistent consistent solution
    apply Completes.leads (survey_inspected covered' heeds scanning)
    intro _ _ inspected
    exact ⟨recent, inspected.given, inspected.useful, inspected.kept, inspected.checked,
      inspected.processed, inspected.users, inspected.within, inspected.checks,
      inspected.found, inspected.evicted⟩

/-- Only an older solution is refused, whatever judges the entries. -/
theorem scan_covered (covered : s.Covered) (consistent : s.pool.Consistent) (solution : Nat)
    (check : Check kind α) :
    (scan solution check).Ensures s
      (fun _ s' => (∀ last, s.pool.processed = some last → last ≤ solution) ∧
        s'.pool.processed = some solution)
      (fun _ s' => s' = s ∧ ∃ last, s.pool.processed = some last ∧ solution < last) := by
  apply ensures_scan
  · intro _ last processed late
    exact ⟨rfl, last, processed, late⟩
  · intro recent _
    exact ⟨recent, rfl⟩
  · intro recent _
    have scanning := scanning_of_consistent consistent solution
    have counted : Scanning (s.aimed solution).counted.pool solution
        (s.aimed solution).pool.cursor := scanning.stats _
    have covered' : (s.aimed solution).counted.Covered := covered
    apply ensures_survey.2
    have rest := Nat.add_sub_cancel' scanning.consistent.cursor
    apply Completes.leads (examineFrom_covered covered' check _ 0 counted rest)
    intro _ _ _
    exact ⟨recent, rfl⟩

end Stock

end BranchCutPrice
