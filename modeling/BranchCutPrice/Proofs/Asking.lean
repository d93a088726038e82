import BranchCutPrice.Proofs.Inspections

/-!
What a scan asks, and what it counts. A scan that ends gives one verdict on each entry that was
not checked before, which is the answer of its check at that turn, and counts each of them. A
scan may also be refused after it has asked: it evicts an entry, and with it the object of
another one that it comes to.
-/

namespace BranchCutPrice

open BranchCutPrice.Action

variable {kind : Kind} {α : Type}

namespace Pool

/-- All entries were checked against a solution. -/
def Exhausted (pool : Pool kind α) (solution : Nat) : Prop :=
  ∀ entry ∈ pool.entries, entry.processed = some solution

instance (pool : Pool kind α) (solution : Nat) : Decidable (pool.Exhausted solution) :=
  inferInstanceAs (Decidable (∀ entry ∈ pool.entries, entry.processed = some solution))

theorem exhausted_iff {pool : Pool kind α} {solution : Nat} :
    pool.Exhausted solution ↔ unchecked solution pool.records = 0 := by
  unfold unchecked
  rw [Multiset.filter_eq_nil]
  constructor
  · intro exhausted record member
    obtain ⟨entry, there, rfl⟩ := mem_records.1 member
    exact not_not.2 (exhausted entry there)
  · intro none entry member
    exact not_not.1 (none entry.record (mem_records.2 ⟨entry, member, rfl⟩))

end Pool

namespace Stock

variable {s s' s'' : Stock kind α} {position solution asked : Nat} {check : Check kind α}
  {verdicts more : List (Handle kind × Verdict)}

/-- All objects are there. -/
def Live (s : Stock kind α) : Prop :=
  ∀ handle ∈ s.pool.handles, s.registry.contains handle = true

instance (s : Stock kind α) : Decidable s.Live :=
  inferInstanceAs (Decidable (∀ handle ∈ s.pool.handles, s.registry.contains handle = true))

/-! ### Evictions -/

/-- An unchecked entry was found useless once too often, and is gone. -/
def Evicts (s : Stock kind α) (solution : Nat) (check : Check kind α) (s' : Stock kind α) : Prop :=
  ∃ entry ∈ unchecked solution s.pool.records, s.pool.ageLimit < entry.age + 1 ∧
    s.registry.Supports check (entry.handle, .useless) ∧
    entry.handle ::ₘ s'.pool.handles ≤ s.pool.handles

theorem Evicts.handles_le (evicts : s.Evicts solution check s') :
    s'.pool.handles ≤ s.pool.handles := by
  obtain ⟨_, _, _, _, gone⟩ := evicts
  exact (Multiset.le_cons_self _ _).trans gone

theorem Evicts.later (evicts : s.Evicts solution check s')
    (less : s''.pool.handles ≤ s'.pool.handles) : s.Evicts solution check s'' := by
  obtain ⟨entry, fresh, beyond, useless, gone⟩ := evicts
  exact ⟨entry, fresh, beyond, useless, (Multiset.cons_le_cons _ less).trans gone⟩

/-! ### Examinations -/

/-- Examinations with their verdicts, the first of which the check gave at turn `asked`. Each of
them is counted, and takes one unchecked entry. -/
structure Examines (s : Stock kind α) (solution asked : Nat) (check : Check kind α)
    (verdicts : List (Handle kind × Verdict)) (s' : Stock kind α) : Prop where
  heard : ∃ entries : List (PoolEntry kind),
    entries.map PoolEntry.handle = verdicts.map Prod.fst ∧
      unchecked solution s.pool.records = entries + unchecked solution s'.pool.records
  given : ∀ (i : Nat) (found : Handle kind × Verdict), verdicts[i]? = some found →
    ∃ item, s.registry.get found.1 = .ok item ∧ found.2 = check (asked + i) found.1 item
  calls : s'.pool.stats.calls = s.pool.stats.calls
  checks : s'.pool.stats.checks = s.pool.stats.checks + verdicts.length
  limit : s'.pool.ageLimit = s.pool.ageLimit
  within : s'.registry.Within s.registry
  /-- As long as nothing is evicted, no object is lost. -/
  held : s'.registry = s.registry ∧ s'.pool.handles = s.pool.handles ∨ s.Evicts solution check s'

/-- Examinations that are stopped, the last one counted as well. If all objects were there, the
one that stops them was lost with an entry that was evicted. -/
structure Stops (s : Stock kind α) (solution : Nat) (check : Check kind α) (s' : Stock kind α) :
    Prop where
  calls : s'.pool.stats.calls = s.pool.stats.calls
  checks : s.pool.stats.checks < s'.pool.stats.checks
  less : s'.pool.handles ≤ s.pool.handles
  evicts : s.Live → s.Evicts solution check s'

namespace Examines

theorem handles_le (examines : Examines s solution asked check verdicts s') :
    s'.pool.handles ≤ s.pool.handles := by
  obtain ⟨_, same⟩ | evicts := examines.held
  · exact same.le
  · exact evicts.handles_le

/-- What is evicted later was there at first. -/
theorem evicts (examines : Examines s solution asked check verdicts s')
    (evicts : s'.Evicts solution check s'') : s.Evicts solution check s'' := by
  obtain ⟨entry, fresh, beyond, ⟨turn, item, got, useless⟩, gone⟩ := evicts
  obtain ⟨_, _, split⟩ := examines.heard
  refine ⟨entry, ?_, examines.limit ▸ beyond, ⟨turn, item, examines.within _ item got, useless⟩,
    gone.trans examines.handles_le⟩
  rw [split]
  exact Multiset.mem_add.2 (.inr fresh)

theorem nil (s : Stock kind α) : Examines s solution asked check [] s where
  heard := ⟨[], rfl, (zero_add _).symm⟩
  given _ _ found := nomatch found
  calls := rfl
  checks := rfl
  limit := rfl
  within := .rfl
  held := .inl ⟨rfl, rfl⟩

theorem append (first : Examines s solution asked check verdicts s')
    (second : Examines s' solution (asked + verdicts.length) check more s'') :
    Examines s solution asked check (verdicts ++ more) s'' := by
  obtain ⟨entries, handles, split⟩ := first.heard
  obtain ⟨entries', handles', split'⟩ := second.heard
  refine ⟨⟨entries ++ entries', ?_, ?_⟩, fun i found there => ?_, second.calls.trans first.calls,
    ?_, second.limit.trans first.limit, second.within.trans first.within, ?_⟩
  · rw [List.map_append, List.map_append, handles, handles']
  · rw [split, split', ← Multiset.coe_add, add_assoc]
  · by_cases early : i < verdicts.length
    · rw [List.getElem?_append_left early] at there
      exact first.given i found there
    · rw [List.getElem?_append_right (Nat.le_of_not_lt early)] at there
      obtain ⟨item, got, same⟩ := second.given _ found there
      have turn : asked + verdicts.length + (i - verdicts.length) = asked + i := by omega
      rw [turn] at same
      exact ⟨item, first.within _ item got, same⟩
  · rw [second.checks, first.checks, List.length_append, add_assoc]
  · obtain ⟨registry, handles⟩ | evicts := first.held
    · obtain ⟨registry', handles'⟩ | evicts := second.held
      · exact .inl ⟨registry'.trans registry, handles'.trans handles⟩
      · exact .inr (first.evicts evicts)
    · exact .inr (evicts.later second.handles_le)

theorem stops (first : Examines s solution asked check verdicts s')
    (second : s'.Stops solution check s'') : s.Stops solution check s'' where
  calls := second.calls.trans first.calls
  checks := (first.checks ▸ Nat.le_add_right _ _).trans_lt second.checks
  less := second.less.trans first.handles_le
  evicts live := by
    obtain ⟨registry, handles⟩ | evicts := first.held
    · have live' : s'.Live := by
        unfold Live
        rw [registry, handles]
        exact live
      exact first.evicts (second.evicts live')
    · exact evicts.later second.less

/-- One entry is taken. -/
theorem one {entry : PoolEntry kind} {rest : Multiset (PoolEntry kind)} {item : α}
    (records : s.pool.records = entry.record ::ₘ rest) (fresh : entry.processed ≠ some solution)
    (got : s.registry.get entry.handle = .ok item)
    (after : unchecked solution s'.pool.records = unchecked solution rest)
    (calls : s'.pool.stats.calls = s.pool.stats.calls)
    (checks : s'.pool.stats.checks = s.pool.stats.checks + 1)
    (limit : s'.pool.ageLimit = s.pool.ageLimit) (within : s'.registry.Within s.registry)
    (held : s'.registry = s.registry ∧ s'.pool.handles = s.pool.handles ∨
      s.Evicts solution check s') :
    Examines s solution asked check [(entry.handle, check asked entry.handle item)] s' := by
  refine ⟨⟨[entry.record], rfl, ?_⟩, fun i found there => ?_, calls, checks, limit, within, held⟩
  · rw [records, after, unchecked_cons (show entry.record.processed ≠ some solution from fresh)]
    rfl
  · cases i with
    | zero =>
      cases there
      exact ⟨item, got, rfl⟩
    | succ i => cases there

end Examines

theorem handles_marked (s : Stock kind α) (solution position : Nat) :
    (s.marked solution position).pool.handles = s.pool.handles :=
  Pool.handles_modify _ _ fun _ => rfl

theorem handles_aged (s : Stock kind α) (position age : Nat) :
    (s.aged position age).pool.handles = s.pool.handles :=
  Pool.handles_modify _ _ fun _ => rfl

section Entry

variable {entry : PoolEntry kind} (found : s.pool.entries[position]? = some entry)
include found

theorem records_marked (solution : Nat) : (s.marked solution position).pool.records =
    { entry with processed := some solution }.record ::ₘ (s.pool.detach position entry).records :=
  Pool.records_amend found (Pool.records_detach found) _

theorem records_renewed (solution age : Nat) :
    ((s.marked solution position).aged position age).pool.records =
      { entry with processed := some solution, age := age }.record ::ₘ
        (s.pool.detach position entry).records :=
  Pool.records_amend (entry_marked found solution) (records_marked found solution)
    fun entry => { entry with age := age }

variable {item : α} (fresh : entry.processed ≠ some solution)
  (got : s.registry.get entry.handle = .ok item)
include fresh got

theorem examines_marked :
    Examines s solution asked check [(entry.handle, check asked entry.handle item)]
      (s.marked solution position) := by
  refine .one (Pool.records_detach found) fresh got ?_ rfl rfl rfl .rfl
    (.inl ⟨rfl, handles_marked s solution position⟩)
  rw [records_marked found]
  exact unchecked_checked rfl

theorem examines_renewed (age : Nat) :
    Examines s solution asked check [(entry.handle, check asked entry.handle item)]
      ((s.marked solution position).aged position age) := by
  refine .one (Pool.records_detach found) fresh got ?_ rfl rfl rfl .rfl
    (.inl ⟨rfl, (handles_aged _ position age).trans (handles_marked s solution position)⟩)
  rw [records_renewed found]
  exact unchecked_checked rfl

/-- Whether its removal is completed or not, an entry that is too old is gone. -/
theorem removeAt_evicts (useless : check asked entry.handle item = .useless)
    (beyond : s.pool.ageLimit < entry.age + 1) :
    (removeAt position).Reaches ((s.marked solution position).aged position (entry.age + 1))
      fun s' => s.Evicts solution check s' ∧
        s'.pool.records = (s.pool.detach position entry).records ∧
        s'.pool.stats = { s.pool.stats with checks := s.pool.stats.checks + 1 } ∧
        s'.pool.ageLimit = s.pool.ageLimit ∧ s'.registry.Within s.registry := by
  have there := entry_aged (entry_marked found solution) (entry.age + 1)
  have removed := removeAt_pool
    (s := (s.marked solution position).aged position (entry.age + 1)) position
  rw [there] at removed
  refine Reaches.mono (removed.and (removeAt_within position)) ?_
  rintro s' ⟨pool, within⟩
  dsimp only at pool
  rw [pool]
  refine ⟨⟨entry.record, ?_, beyond, ⟨asked, item, got, useless.symm⟩, ?_⟩,
    Pool.records_others there (records_renewed found solution _), Pool.stats_detach _ _ _,
    Pool.ageLimit_detach _ _ _, within⟩
  · rw [Pool.records_detach found,
      unchecked_cons (show entry.record.processed ≠ some solution from fresh)]
    exact Multiset.mem_cons_self _ _
  · rw [pool, ← handles_marked s solution position, ← handles_aged _ position (entry.age + 1)]
    exact (Pool.handles_detach there).le

end Entry

/-- An entry that was checked before is passed over, and another one is taken. -/
theorem examine_examines {entry : PoolEntry kind}
    (found : s.pool.entries[position]? = some entry) (check : Check kind α) (asked : Nat) :
    (examine solution (check asked) position).Ensures s
      (fun next s' => Examines s solution asked check next.1.toList s')
      (fun _ s' => s.Stops solution check s') := by
  apply ensures_examine found
  · intro _
    exact .nil s
  · intro _ e stale
    refine ⟨rfl, Nat.lt_succ_self _, (handles_marked s solution position).le, fun live => ?_⟩
    obtain ⟨item, got⟩ := Registry.contains_iff_get.1 (live entry.handle (handle_mem found))
    cases stale.symm.trans got
  · intro fresh item got
    have stays (age : Nat) : Examines s solution asked check
        [(entry.handle, check asked entry.handle item)]
        ((s.marked solution position).aged position age) :=
      examines_renewed found fresh got age
    have marked : Examines s solution asked check
        [(entry.handle, check asked entry.handle item)] (s.marked solution position) :=
      examines_marked found fresh got
    cases judged : check asked entry.handle item with
    | loaded =>
      rw [judged] at marked
      exact marked
    | useful score =>
      rw [judged] at stays
      exact stays 0
    | useless =>
      rw [judged] at stays
      apply ensures_grow
      · intro _
        exact stays (entry.age + 1)
      · intro beyond
        apply (removeAt_evicts found fresh got judged beyond).imp
        · rintro _ s' ⟨evicts, records, stats, limit, within⟩
          have taken : Examines s solution asked check
              [(entry.handle, check asked entry.handle item)]
              ⟨{ s'.pool with
                stats := { s'.pool.stats with evicted := s'.pool.stats.evicted + 1 } },
                s'.registry⟩ :=
            .one (Pool.records_detach found) fresh got (congrArg (unchecked solution) records)
              (congrArg PoolStats.calls stats :) (congrArg PoolStats.checks stats :) limit within
              (.inr evicts)
          rw [judged] at taken
          exact taken
        · rintro _ s' ⟨evicts, _, stats, _, _⟩
          refine ⟨(congrArg PoolStats.calls stats :), ?_, evicts.handles_le, fun _ => evicts⟩
          rw [stats]
          exact Nat.lt_succ_self _

theorem examineFrom_examines (check : Check kind α) (remaining asked : Nat)
    (scanning : Scanning s.pool solution position)
    (rest : position + remaining = s.pool.entries.size) :
    (examineFrom solution check remaining asked position).Ensures s
      (fun verdicts s' => Examines s solution asked check verdicts s')
      (fun _ s' => s.Stops solution check s') := by
  induction remaining generalizing s asked position with
  | zero => exact .nil s
  | succ remaining ih =>
    obtain ⟨entry, found⟩ : ∃ entry, s.pool.entries[position]? = some entry :=
      ⟨_, Array.getElem?_eq_getElem (by omega)⟩
    unfold examineFrom
    rw [ensures_bind]
    apply ((examine_scanning scanning (check asked) (by omega)).and
      (examine_examines found check asked)).imp
    · rintro next s' ⟨⟨further, count⟩, first⟩
      rw [ensures_bind]
      apply (ih _ further (by omega)).imp
      · intro _ _ second
        exact first.append second
      · intro _ _ stops
        exact first.stops stops
    · intro _ _ refused
      exact refused.2

/-! ### Scans -/

/-- The verdicts of a scan that ends: one on each unchecked entry, and each of them the answer
of the check at its turn. -/
structure Answered (s : Stock kind α) (solution : Nat) (check : Check kind α)
    (verdicts : List (Handle kind × Verdict)) : Prop where
  asked : (verdicts.map Prod.fst : Multiset (Handle kind)) =
    (unchecked solution s.pool.records).map PoolEntry.handle
  given : ∀ (turn : Nat) (found : Handle kind × Verdict), verdicts[turn]? = some found →
    ∃ item, s.registry.get found.1 = .ok item ∧ found.2 = check turn found.1 item

theorem Examines.answered (examines : Examines s solution 0 check verdicts s')
    (exhausted : s'.pool.Exhausted solution) : s.Answered solution check verdicts where
  asked := by
    obtain ⟨entries, handles, split⟩ := examines.heard
    rw [split, Pool.exhausted_iff.1 exhausted, add_zero, Multiset.map_coe, handles]
  given turn found there := by
    obtain ⟨item, got, same⟩ := examines.given turn found there
    rw [Nat.zero_add] at same
    exact ⟨item, got, same⟩

/-- There are verdicts unless nothing was left to check. -/
theorem Answered.eq_nil_iff (answered : s.Answered solution check verdicts) :
    verdicts = [] ↔ s.pool.Exhausted solution := by
  have asked := congrArg Multiset.card answered.asked
  rw [Multiset.coe_card, List.length_map, Multiset.card_map] at asked
  rw [Pool.exhausted_iff, ← Multiset.card_eq_zero, ← asked, List.length_eq_zero_iff]

theorem Evicts.not_exhausted (evicts : s.Evicts solution check s') :
    ¬s.pool.Exhausted solution := by
  obtain ⟨entry, fresh, _⟩ := evicts
  intro exhausted
  rw [Pool.exhausted_iff.1 exhausted] at fresh
  exact Multiset.notMem_zero _ fresh

/-- A scan ends with nothing done, or it counts itself, whether it ends or is stopped. -/
theorem scan_asks (consistent : s.pool.Consistent)
    (recent : ∀ last, s.pool.processed = some last → last ≤ solution) (check : Check kind α) :
    (scan solution check).Ensures s
      (fun survey s' => s.Answered solution check survey.verdicts ∧
        s'.pool.stats.checks = s.pool.stats.checks + survey.verdicts.length ∧
        (s.pool.entries.size ≤ (s.aimed solution).pool.cursor ∧ survey.finding = .notRun ∧
            s'.pool.stats = s.pool.stats ∨
          (s.aimed solution).pool.cursor < s.pool.entries.size ∧ survey.finding ≠ .notRun ∧
            s'.pool.stats.calls = s.pool.stats.calls + 1))
      (fun _ s' => (s.aimed solution).pool.cursor < s.pool.entries.size ∧
        s'.pool.stats.calls = s.pool.stats.calls + 1 ∧
        s.pool.stats.checks < s'.pool.stats.checks ∧ (s.Live → s.Evicts solution check s')) := by
  have scanning := scanning_of_consistent consistent solution
  apply ensures_scan
  · intro _ last processed late
    exact absurd (recent last processed) (Nat.not_le_of_lt late)
  · intro _ idle
    have nothing : Examines s solution 0 check [] s := .nil s
    exact ⟨nothing.answered fun _ => checked_of_idle consistent idle, rfl, .inl ⟨idle, rfl, rfl⟩⟩
  · intro _ busy
    have counted : Scanning (s.aimed solution).counted.pool solution
        (s.aimed solution).pool.cursor := scanning.stats _
    have whole := Nat.add_sub_cancel' scanning.consistent.cursor
    apply ensures_survey.2
    apply ((examineFrom_examines check _ 0 counted whole).and
      (examineFrom_scanning check _ 0 counted whole)).imp
    · rintro verdicts s' ⟨examines, swept⟩
      obtain ⟨asked, given⟩ := examines.answered fun _ => swept.checked
      refine ⟨⟨asked, given⟩, examines.checks, .inr ⟨busy, ?_, examines.calls⟩⟩
      dsimp only
      split <;> exact fun same => nomatch same
    · rintro _ s' ⟨stops, _⟩
      exact ⟨busy, stops.calls, stops.checks, stops.evicts⟩

section Scan

variable (s : Stock kind α) (solution : Nat) (check : Check kind α)

/-- A scan says that nothing was left to check. -/
def Rests : Prop :=
  ∃ survey, ((scan solution check) s).result = .ok survey ∧ survey.finding = .notRun

/-- A scan asks about an entry: it gives a verdict, or it is refused after a verdict has cost an
entry its place. -/
def Asks : Prop :=
  (∃ survey, ((scan solution check) s).result = .ok survey ∧ survey.verdicts ≠ []) ∨
    ∃ e, ((scan solution check) s).result = .error e ∧
      s.Evicts solution check ((scan solution check) s).state

end Scan

section Results

variable {survey : Survey kind} {e : Error}

theorem rests_of_ok (ended : ((scan solution check) s).result = .ok survey) :
    s.Rests solution check ↔ survey.finding = .notRun := by
  constructor
  · rintro ⟨_, same, rests⟩
    cases ended.symm.trans same
    exact rests
  · intro rests
    exact ⟨survey, ended, rests⟩

theorem not_rests_of_error (refused : ((scan solution check) s).result = .error e) :
    ¬s.Rests solution check := by
  rintro ⟨_, same, _⟩
  cases refused.symm.trans same

theorem asks_of_ok (ended : ((scan solution check) s).result = .ok survey) :
    s.Asks solution check ↔ survey.verdicts ≠ [] := by
  constructor
  · rintro (⟨_, same, asked⟩ | ⟨_, same, _⟩)
    · cases ended.symm.trans same
      exact asked
    · cases ended.symm.trans same
  · intro asked
    exact .inl ⟨survey, ended, asked⟩

theorem asks_of_error (refused : ((scan solution check) s).result = .error e) :
    s.Asks solution check ↔ s.Evicts solution check ((scan solution check) s).state := by
  constructor
  · rintro (⟨_, same, _⟩ | ⟨_, _, evicts⟩)
    · cases refused.symm.trans same
    · exact evicts
  · intro evicts
    exact .inr ⟨e, refused, evicts⟩

end Results

section Outcomes

variable (consistent : s.pool.Consistent)
  (recent : ∀ last, s.pool.processed = some last → last ≤ solution) (check : Check kind α)
include consistent recent

/-- A scan rests behind all entries, or it is counted. -/
theorem rests_or_counts :
    s.Rests solution check ∧ s.pool.Exhausted solution ∧
        ((scan solution check) s).state.pool.stats = s.pool.stats ∨
      (s.aimed solution).pool.cursor < s.pool.entries.size ∧ ¬s.Rests solution check ∧
        ((scan solution check) s).state.pool.stats.calls = s.pool.stats.calls + 1 := by
  have asks := scan_asks consistent recent check
  cases ended : ((scan solution check) s).result with
  | ok survey =>
    obtain ⟨_, _, ⟨idle, rests, same⟩ | ⟨busy, runs, calls⟩⟩ := ensures_of_ok ended asks
    · exact .inl ⟨(rests_of_ok ended).2 rests, fun _ => checked_of_idle consistent idle, same⟩
    · exact .inr ⟨busy, fun rests => runs ((rests_of_ok ended).1 rests), calls⟩
  | error e =>
    obtain ⟨busy, calls, _⟩ := ensures_of_error ended asks
    exact .inr ⟨busy, not_rests_of_error ended, calls⟩

theorem answered_of_ok {survey : Survey kind}
    (ended : ((scan solution check) s).result = .ok survey) :
    s.Answered solution check survey.verdicts ∧
      ((scan solution check) s).state.pool.stats.checks =
        s.pool.stats.checks + survey.verdicts.length := by
  obtain ⟨answered, checks, _⟩ := ensures_of_ok ended (scan_asks consistent recent check)
  exact ⟨answered, checks⟩

/-- Nothing is asked twice about a solution. -/
theorem not_exhausted_of_asks (asks : s.Asks solution check) : ¬s.pool.Exhausted solution := by
  obtain ⟨survey, ended, asked⟩ | ⟨_, _, evicts⟩ := asks
  · obtain ⟨answered, _⟩ := answered_of_ok consistent recent check ended
    exact fun exhausted => asked (answered.eq_nil_iff.2 exhausted)
  · exact evicts.not_exhausted

/-- With all objects there a scan asks whenever something is left to check. -/
theorem asks_iff (live : s.Live) : s.Asks solution check ↔ ¬s.pool.Exhausted solution := by
  refine ⟨not_exhausted_of_asks consistent recent check, fun fresh => ?_⟩
  cases ended : ((scan solution check) s).result with
  | ok survey =>
    obtain ⟨answered, _⟩ := answered_of_ok consistent recent check ended
    rw [asks_of_ok ended, Ne, answered.eq_nil_iff]
    exact fresh
  | error e =>
    obtain ⟨_, _, _, evicts⟩ := ensures_of_error ended (scan_asks consistent recent check)
    exact (asks_of_error ended).2 (evicts live)

theorem checks_or_exhausted :
    s.pool.stats.checks < ((scan solution check) s).state.pool.stats.checks ∨
      s.pool.Exhausted solution := by
  cases ended : ((scan solution check) s).result with
  | ok survey =>
    obtain ⟨answered, checks⟩ := answered_of_ok consistent recent check ended
    rw [checks, ← answered.eq_nil_iff, ← List.length_eq_zero_iff]
    omega
  | error e =>
    obtain ⟨_, _, checks, _⟩ := ensures_of_error ended (scan_asks consistent recent check)
    exact .inl checks

/-- The check counter goes up just when something is asked. -/
theorem checks_lt_iff (live : s.Live) :
    s.pool.stats.checks < ((scan solution check) s).state.pool.stats.checks ↔
      s.Asks solution check := by
  rw [asks_iff consistent recent check live]
  refine ⟨fun counted => ?_, (checks_or_exhausted consistent recent check).resolve_right⟩
  cases ended : ((scan solution check) s).result with
  | ok survey =>
    obtain ⟨answered, checks⟩ := answered_of_ok consistent recent check ended
    rw [← answered.eq_nil_iff, ← List.length_eq_zero_iff]
    omega
  | error e =>
    obtain ⟨_, _, _, evicts⟩ := ensures_of_error ended (scan_asks consistent recent check)
    exact (evicts live).not_exhausted

end Outcomes

end Stock

end BranchCutPrice
