import BranchCutPrice.Proofs.Aging

/-!
What a scan finds. Every entry that was not checked against the solution yet is judged by its
object as it was when the scan began, the pool loses only entries that were found useless, and
in the end all entries are checked. A balanced stock refuses only older solutions.
-/

namespace BranchCutPrice

open BranchCutPrice.Action

variable {kind : Kind} {α : Type}

/-- The verdict is that of the check of a registered object, at some turn. -/
def Registry.Supports (registry : Registry kind α) (check : Check kind α)
    (found : Handle kind × Verdict) : Prop :=
  ∃ asked item, registry.get found.1 = .ok item ∧ found.2 = check asked found.1 item

theorem Registry.Balanced.get {registry : Registry kind α} {owed : Multiset (Handle kind)}
    (balanced : registry.Balanced owed) {handle : Handle kind} (held : handle ∈ owed) :
    ∃ item, registry.get handle = .ok item :=
  contains_iff_get.1 (balanced.live held)

theorem mem_usefulScores {verdicts : List (Handle kind × Verdict)} {handle : Handle kind}
    {score : Float} :
    (handle, score) ∈ usefulScores verdicts ↔ (handle, .useful score) ∈ verdicts := by
  unfold usefulScores
  rw [List.mem_filterMap]
  constructor
  · rintro ⟨⟨other, verdict⟩, member, kept⟩
    cases verdict with
    | useful found =>
      cases kept
      exact member
    | loaded | useless => cases kept
  · intro member
    exact ⟨_, member, rfl⟩

namespace Stock

variable {s s' s'' : Stock kind α} {owed gone : Multiset (Handle kind)}
  {position next solution asked : Nat} {check : Check kind α}

/-! ### One entry -/

/-- The entries behind a position are still to come from another one on, however the last of
them may have moved. -/
structure Passes (s : Stock kind α) (position : Nat) (gone : Multiset (Handle kind)) (next : Nat)
    (s' : Stock kind α) : Prop where
  ahead : ∀ (i : Nat) (entry : PoolEntry kind), position < i → s.pool.entries[i]? = some entry →
    ∃ (j : Nat) (later : PoolEntry kind), next ≤ j ∧ s'.pool.entries[j]? = some later ∧
      later.handle = entry.handle ∧ later.processed = entry.processed
  handles : s.pool.handles = gone + s'.pool.handles
  within : s'.registry.Within s.registry

/-- The entry at the position may change but for its handle. -/
theorem Passes.amend (f : PoolEntry kind → PoolEntry kind)
    (keeps : ∀ entry, (f entry).handle = entry.handle) (stats : PoolStats)
    (later : Passes ⟨{ s.pool.amend position f with stats := stats }, s.registry⟩ position gone
      next s') : Passes s position gone next s' where
  ahead i entry behind found := by
    apply later.ahead i entry behind
    change (s.pool.amend position f).entries[i]? = some entry
    rw [Pool.getElem?_amend, if_neg (Nat.ne_of_lt behind)]
    exact found
  handles := (Pool.handles_modify s.pool f keeps).symm.trans later.handles
  within := later.within

theorem Passes.of_marked
    (later : Passes (s.marked solution position) position gone next s') :
    Passes s position gone next s' :=
  .amend (fun entry => { entry with processed := some solution }) (fun _ => rfl) _ later

theorem Passes.of_aged (age : Nat) (later : Passes (s.aged position age) position gone next s') :
    Passes s position gone next s' :=
  .amend (fun entry => { entry with age := age }) (fun _ => rfl) s.pool.stats later

theorem Passes.stay (s : Stock kind α) (position : Nat) : Passes s position 0 (position + 1) s where
  ahead i entry behind found := ⟨i, entry, behind, found, rfl, rfl⟩
  handles := (zero_add _).symm
  within := .rfl

/-- The last entry takes the place of the one taken out, so that it is the next. -/
theorem removeAt_passes (balanced : s.Balanced owed) {entry : PoolEntry kind}
    (found : s.pool.entries[position]? = some entry) :
    (removeAt position).Ensures s (fun _ s' => Passes s position {entry.handle} position s')
      (fun _ _ => False) := by
  have ran := ((removeAt_pool (s := s) position).and (removeAt_within position)).and
    (removeAt_reaches balanced position)
  apply ran.imp
  · intro _ s' done
    obtain ⟨⟨pool, within⟩, _⟩ := done
    simp only [found] at pool
    have looked := Pool.getElem?_detach found
    rw [← pool] at looked
    refine ⟨fun i other behind there => ?_, ?_, within⟩
    · have inside := (Array.getElem?_eq_some_iff.1 there).1
      by_cases last : i = s.pool.entries.size - 1
      · refine ⟨position, { other with position := position }, Nat.le_refl _, ?_, rfl, rfl⟩
        rw [looked, if_neg (by omega), if_pos rfl, ← last, there]
        rfl
      · refine ⟨i, other, Nat.le_of_lt behind, ?_, rfl, rfl⟩
        rw [looked, if_neg last, if_neg (by omega)]
        exact there
    · rw [pool, Multiset.singleton_add, Pool.handles_detach found]
  · intro _ _ refused
    exact refused.2

theorem grow_passes (balanced : s.Balanced owed) {entry current : PoolEntry kind}
    (found : s.pool.entries[position]? = some current) (same : current.handle = entry.handle) :
    (grow position entry).Ensures s
      (fun next s' => ∃ gone ≤ {entry.handle}, Passes s position gone next s')
      (fun _ _ => False) := by
  apply ensures_grow
  · intro _
    exact ⟨0, Multiset.zero_le _, .of_aged _ (.stay _ position)⟩
  · intro _
    apply (removeAt_passes (balanced.aged position _) (entry_aged found _)).imp
    · intro _ s' passes
      refine ⟨{entry.handle}, le_rfl, .of_aged (entry.age + 1) ?_⟩
      rw [← same]
      exact ⟨passes.ahead, passes.handles, passes.within⟩
    · intro _ _ no
      exact no

/-! ### Many entries -/

/-- The entries from a position on were checked as far as the next one. -/
structure Sweeps (s : Stock kind α) (solution : Nat) (check : Check kind α)
    (position : Nat) (verdicts : List (Handle kind × Verdict)) (next : Nat) (s' : Stock kind α) :
    Prop where
  judged : ∀ (i : Nat) (entry : PoolEntry kind), position ≤ i →
    s.pool.entries[i]? = some entry → entry.processed ≠ some solution →
      (∃ verdict, (entry.handle, verdict) ∈ verdicts) ∨
        ∃ (j : Nat) (later : PoolEntry kind), next ≤ j ∧ s'.pool.entries[j]? = some later ∧
          later.handle = entry.handle ∧ later.processed = entry.processed
  given : ∀ found ∈ verdicts, s.registry.Supports check found
  culled : ∃ gone, s.pool.handles = gone + s'.pool.handles ∧
    ∀ handle ∈ gone, (handle, .useless) ∈ verdicts
  within : s'.registry.Within s.registry

theorem Sweeps.nil (s : Stock kind α) (solution : Nat) (check : Check kind α)
    (position : Nat) : Sweeps s solution check position [] position s where
  judged i entry behind found _ := .inr ⟨i, entry, behind, found, rfl, rfl⟩
  given _ member := absurd member List.not_mem_nil
  culled := ⟨0, (zero_add _).symm, fun _ member => absurd member (Multiset.notMem_zero _)⟩
  within := .rfl

theorem Sweeps.trans {verdicts more : List (Handle kind × Verdict)} {last : Nat}
    (first : Sweeps s solution check position verdicts next s')
    (second : Sweeps s' solution check next more last s'') :
    Sweeps s solution check position (verdicts ++ more) last s'' where
  judged i entry behind found fresh := by
    obtain ⟨verdict, member⟩ | ⟨j, later, ahead, there, handle, processed⟩ :=
      first.judged i entry behind found fresh
    · exact .inl ⟨verdict, List.mem_append_left _ member⟩
    · rw [← handle, ← processed]
      rw [← processed] at fresh
      exact (second.judged j later ahead there fresh).imp
        (fun ⟨verdict, member⟩ => ⟨verdict, List.mem_append_right _ member⟩) id
  given found member := by
    obtain early | late := List.mem_append.1 member
    · exact first.given found early
    · obtain ⟨asked, item, got, same⟩ := second.given found late
      exact ⟨asked, item, first.within _ item got, same⟩
  culled := by
    obtain ⟨gone, handles, useless⟩ := first.culled
    obtain ⟨gone', handles', useless'⟩ := second.culled
    refine ⟨gone + gone', by rw [handles, handles', add_assoc], fun handle member => ?_⟩
    obtain early | late := Multiset.mem_add.1 member
    · exact List.mem_append_left _ (useless handle early)
    · exact List.mem_append_right _ (useless' handle late)
  within := second.within.trans first.within

/-- An entry checked before is passed by without a verdict. -/
theorem Sweeps.skip {entry : PoolEntry kind} (found : s.pool.entries[position]? = some entry)
    (checked : entry.processed = some solution) :
    Sweeps s solution check position [] (position + 1) s where
  judged i other behind there fresh := by
    obtain same | later := Nat.eq_or_lt_of_le behind
    · rw [← same, found] at there
      cases there
      exact absurd checked fresh
    · exact .inr ⟨i, other, later, there, rfl, rfl⟩
  given _ member := absurd member List.not_mem_nil
  culled := ⟨0, (zero_add _).symm, fun _ member => absurd member (Multiset.notMem_zero _)⟩
  within := .rfl

theorem Passes.sweeps (passes : Passes s position gone next s') {entry : PoolEntry kind}
    (found : s.pool.entries[position]? = some entry) {item : α}
    (got : s.registry.get entry.handle = .ok item) (only : gone ≤ {entry.handle})
    (useless : gone ≠ 0 → check asked entry.handle item = .useless) :
    Sweeps s solution check position [(entry.handle, check asked entry.handle item)] next s' where
  judged i other behind there _ := by
    obtain same | later := Nat.eq_or_lt_of_le behind
    · rw [← same, found] at there
      cases there
      exact .inl ⟨_, List.mem_singleton_self _⟩
    · exact .inr (passes.ahead i other later there)
  given verdict member := by
    rw [List.mem_singleton] at member
    rw [member]
    exact ⟨asked, item, got, rfl⟩
  culled := by
    refine ⟨gone, passes.handles, fun handle member => ?_⟩
    have some : gone ≠ 0 := by
      rintro rfl
      exact Multiset.notMem_zero _ member
    rw [Multiset.mem_singleton.1 (Multiset.mem_of_le only member), List.mem_singleton,
      useless some]
  within := passes.within

theorem examine_sweeps (balanced : s.Balanced owed) (check : Check kind α) (asked : Nat)
    {entry : PoolEntry kind} (found : s.pool.entries[position]? = some entry) :
    (examine solution (check asked) position).Ensures s
      (fun found s' => Sweeps s solution check position found.1.toList found.2 s')
      (fun _ _ => False) := by
  have held : entry.handle ∈ owed + s.pool.handles :=
    Multiset.mem_add.2 (.inr (Stock.handle_mem found))
  obtain ⟨item, got⟩ := Registry.Balanced.get balanced held
  -- what becomes of the marked entry, becomes of the entry
  have ends {verdict : Verdict} (judged : check asked entry.handle item = verdict) {next : Nat}
      {s' : Stock kind α} {gone : Multiset (Handle kind)}
      (passes : Passes (s.marked solution position) position gone next s')
      (only : gone ≤ {entry.handle}) (useless : gone ≠ 0 → verdict = .useless) :
      Sweeps s solution check position [(entry.handle, verdict)] next s' := by
    subst judged
    exact passes.of_marked.sweeps found got only useless
  apply ensures_examine found
  · intro checked
    exact .skip found checked
  · intro _ e refused
    cases got.symm.trans refused
  · intro _ item' got'
    cases got.symm.trans got'
    cases judged : check asked entry.handle item with
    | loaded => exact ends judged (.stay _ position) (Multiset.zero_le _) fun some => absurd rfl some
    | useful score =>
      exact ends judged (.of_aged 0 (.stay _ position)) (Multiset.zero_le _)
        fun some => absurd rfl some
    | useless =>
      apply (grow_passes (balanced.marked solution position) (entry_marked found solution) rfl).imp
      · intro next s' passed
        obtain ⟨gone, only, passes⟩ := passed
        exact ends judged passes only fun _ => rfl
      · intro _ _ no
        exact no

theorem examineFrom_sweeps (balanced : s.Balanced owed) (check : Check kind α)
    (remaining asked : Nat) (scanning : Scanning s.pool solution position)
    (rest : position + remaining = s.pool.entries.size) :
    (examineFrom solution check remaining asked position).Ensures s
      (fun verdicts s' => Sweeps s solution check position verdicts s'.pool.entries.size s')
      (fun _ _ => False) := by
  induction remaining generalizing s asked position with
  | zero =>
    rw [Nat.add_zero] at rest
    exact rest ▸ .nil s solution check position
  | succ remaining ih =>
    obtain ⟨entry, found⟩ : ∃ entry, s.pool.entries[position]? = some entry :=
      ⟨_, Array.getElem?_eq_getElem (by omega)⟩
    have examined := (examine_scanning scanning (check asked) (by omega)).and
      ((examine_sweeps balanced check asked found).and
        ((steady_balanced owed).examine balanced solution (check asked) position))
    unfold examineFrom
    rw [ensures_bind]
    apply examined.imp
    · intro found s' done
      obtain ⟨⟨further, count⟩, sweeps, balanced'⟩ := done
      rw [ensures_bind]
      apply (ih balanced' _ further (by omega)).imp
      · intro _ _ more
        exact sweeps.trans more
      · intro _ _ no
        exact no
    · intro _ _ refused
      exact refused.2.1

/-! ### Scans -/

/-- What a scan comes to. -/
structure Surveys (s : Stock kind α) (solution : Nat) (check : Check kind α)
    (survey : Survey kind) (s' : Stock kind α) : Prop where
  judged : ∀ entry ∈ s.pool.entries, entry.processed ≠ some solution →
    ∃ verdict, (entry.handle, verdict) ∈ survey.verdicts
  given : ∀ found ∈ survey.verdicts, s.registry.Supports check found
  culled : ∃ gone, s.pool.handles = gone + s'.pool.handles ∧
    ∀ handle ∈ gone, (handle, .useless) ∈ survey.verdicts
  within : s'.registry.Within s.registry
  checked : ∀ entry ∈ s'.pool.entries, entry.processed = some solution
  processed : s'.pool.processed = some solution

theorem survey_surveys (balanced : s.Balanced owed)
    (scanning : Scanning s.pool solution s.pool.cursor) (check : Check kind α) :
    (survey solution check).Ensures s (fun survey s' => Surveys s solution check survey s')
      (fun _ _ => False) := by
  have counted : Scanning s.counted.pool solution s.pool.cursor := scanning.stats _
  have whole : s.pool.cursor + (s.pool.entries.size - s.pool.cursor) =
      s.counted.pool.entries.size := Nat.add_sub_cancel' scanning.consistent.cursor
  have balanced' : s.counted.Balanced owed := balanced.pool rfl
  apply ensures_survey.2
  apply ((examineFrom_sweeps balanced' check _ 0 counted whole).and
    (examineFrom_scanning check _ 0 counted whole)).imp
  · intro verdicts s' done
    obtain ⟨sweeps, swept⟩ := done
    refine ⟨fun entry member fresh => ?_, sweeps.given, sweeps.culled, sweeps.within,
      fun _ => swept.checked, rfl⟩
    obtain ⟨i, bound, rfl⟩ := Array.mem_iff_getElem.1 member
    have found : s.pool.entries[i]? = some s.pool.entries[i] := Array.getElem?_eq_getElem bound
    by_cases early : i < s.pool.cursor
    · exact absurd (counted.swept i _ early found) fresh
    · obtain judged | ⟨j, later, behind, there, _⟩ :=
        sweeps.judged i _ (Nat.le_of_not_lt early) found fresh
      · exact judged
      · have inside := (Array.getElem?_eq_some_iff.1 there).1
        omega
  · intro _ _ refused
    exact refused.1

/-- A scan of a balanced stock is refused only for a solution older than the last one. -/
theorem scan_surveys (balanced : s.Balanced owed) (consistent : s.pool.Consistent)
    (solution : Nat) (check : Check kind α) :
    (scan solution check).Ensures s (fun survey s' => Surveys s solution check survey s')
      (fun _ s' => s' = s ∧ ∃ last, s.pool.processed = some last ∧ solution < last) := by
  apply ensures_scan
  · intro _ last processed late
    exact ⟨rfl, last, processed, late⟩
  · intro _ idle
    have all {entry : PoolEntry kind} (member : entry ∈ s.pool.entries) :
        entry.processed = some solution := checked_of_idle consistent idle member
    exact ⟨fun entry member fresh => absurd (all member) fresh,
      fun _ member => absurd member List.not_mem_nil,
      ⟨0, (zero_add _).symm, fun _ member => absurd member (Multiset.notMem_zero _)⟩, .rfl,
      fun _ => all, rfl⟩
  · intro _ _
    have ready : (s.aimed solution).Balanced owed := balanced.pool rfl
    apply Completes.leads (survey_surveys ready (scanning_of_consistent consistent solution) check)
    intro _ _ surveys
    exact ⟨surveys.judged, surveys.given, surveys.culled, surveys.within, surveys.checked,
      surveys.processed⟩

end Stock

end BranchCutPrice
