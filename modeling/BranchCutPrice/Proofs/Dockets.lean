import BranchCutPrice.Proofs.Inspections
import BranchCutPrice.Proofs.Lifespans

/-!
Checks over a whole run. Beside the careers of the entries it is written down which entry was
checked against which solution. As the solutions of scans never go back, no entry is checked
twice against one of them.
-/

namespace BranchCutPrice

variable {kind : Kind} {α : Type}

/-! ### The checks of a scan -/

namespace Stock

open BranchCutPrice.Action

/-- The career of the entry at a position if an examination there came to a verdict. -/
def heard (position : Nat)
    (outcome : Outcome (Stock kind α) (Option (Handle kind × Verdict) × Nat))
    (careers : List (Career kind)) : List (Career kind) :=
  match outcome.result with
  | .ok (some _, _) => careers[position]?.toList
  | _ => []

/-- The careers with a verdict in `remaining` examinations from a position on. -/
def heardFrom (solution : Nat) (check : Check kind α) :
    (remaining asked position : Nat) → Stock kind α → List (Career kind) → List (Career kind)
  | 0, _, _, _, _ => []
  | remaining + 1, asked, position, s, careers =>
      let outcome := examine solution (check asked) position s
      let rest := match outcome.result with
        | .ok (verdict, next) =>
            heardFrom solution check remaining (asked + verdict.toList.length) next outcome.state
              (noted solution position s outcome careers)
        | .error _ => []
      heard position outcome careers ++ rest

/-- The careers with a verdict in a scan. -/
def heardScan (solution : Nat) (check : Check kind α) (s : Stock kind α)
    (careers : List (Career kind)) : List (Career kind) :=
  let begun := s.begun solution
  heardFrom solution check (begun.pool.entries.size - begun.pool.cursor) 0 begun.pool.cursor begun
    careers

variable {s s' : Stock kind α} {careers : List (Career kind)} {position solution : Nat}
  {check : Check kind α}

theorem examine_heard (check : Handle kind → α → Verdict) (tracks : s.pool.Tracks careers)
    (within : ∀ career ∈ careers, career.streak ≤ s.pool.ageLimit)
    (bound : position < s.pool.entries.size) :
    (examine solution check position).Yields s fun found _ =>
      (pending solution careers).Perm
          (heard position (examine solution check position s) careers ++
            pending solution
              (noted solution position s (examine solution check position s) careers)) ∧
        (heard position (examine solution check position s) careers).map Career.handle =
          found.1.toList.map Prod.fst := by
  apply ((examine_judges tracks within bound).and
    (ensures_ran (examine solution check position) s)).yields
  rintro found s' ⟨⟨career, there, passed | judged⟩, ended, reached⟩
  · obtain ⟨_, rfl, rfl⟩ := passed
    unfold heard noted
    rw [ended, reached, if_neg (Nat.lt_irrefl _)]
    exact ⟨.refl _, rfl⟩
  · obtain ⟨fresh, item, _, given, _⟩ := judged
    obtain ⟨kept, gone⟩ := pending_judged there fresh
      (show (career.judge solution (check career.handle item)).checked = some solution from rfl)
    have here : heard position (examine solution check position s) careers = [career] := by
      obtain ⟨finding, next⟩ := found
      dsimp only at given
      subst given
      unfold heard
      rw [ended, there]
      rfl
    rw [noted_eq ended there given, here, given]
    refine ⟨?_, rfl⟩
    split
    · exact gone
    · exact kept

theorem examineFrom_heard (check : Check kind α) (count asked : Nat)
    (scanning : Scanning s.pool solution position)
    (rest : position + count = s.pool.entries.size) (tracks : s.pool.Tracks careers)
    (within : ∀ career ∈ careers, career.streak ≤ s.pool.ageLimit) :
    (examineFrom solution check count asked position).Yields s fun verdicts _ =>
      (heardFrom solution check count asked position s careers).Perm (pending solution careers) ∧
        (heardFrom solution check count asked position s careers).map Career.handle =
          verdicts.map Prod.fst := by
  induction count generalizing s asked position careers with
  | zero =>
    refine ⟨?_, rfl⟩
    -- all careers are those of entries that were checked
    have none : pending solution careers = [] := by
      rw [List.eq_nil_iff_forall_not_mem]
      intro career member
      obtain ⟨member, fresh⟩ := mem_pending.1 member
      obtain ⟨i, there⟩ := List.getElem?_of_mem member
      obtain ⟨entry, found, _, _, checked⟩ := tracks.entry_of_career there
      have inside := (Array.getElem?_eq_some_iff.1 found).1
      exact fresh (checked.symm.trans (scanning.swept i entry (by omega) found))
    rw [none]
    exact .refl _
  | succ count ih =>
    have bound : position < s.pool.entries.size := by omega
    unfold Yields examineFrom
    rw [ensures_bind]
    apply ((((examine_heard (check asked) tracks within bound).and
      (examine_tracks (check asked) tracks within bound)).and
      (examine_scanning scanning (check asked) bound)).and
      (ensures_ran (examine solution (check asked) position) s)).yields
    rintro found s' ⟨⟨⟨⟨split, handles⟩, tracks', young⟩, further, size⟩, ended, reached⟩
    have written : heardFrom solution check (count + 1) asked position s careers =
        heard position (examine solution (check asked) position s) careers ++
          heardFrom solution check count (asked + found.1.toList.length) found.2 s'
            (noted solution position s (examine solution (check asked) position s) careers) := by
      rw [heardFrom, ended, reached]
    rw [written, ensures_bind]
    apply (ih _ further (by omega) tracks' young).yields
    rintro verdicts s'' ⟨others, handles'⟩
    rw [ensures_pure, List.map_append, handles, handles', List.map_append]
    exact ⟨(others.append_left _).trans split.symm, rfl⟩

/-- A scan hears every entry that was not checked against its solution, and no other one. -/
theorem scan_heard (consistent : s.pool.Consistent) (tracks : s.pool.Tracks careers)
    (within : ∀ career ∈ careers, career.streak ≤ s.pool.ageLimit) :
    (scan solution check).Yields s fun survey _ =>
      (heardScan solution check s careers).Perm (pending solution careers) ∧
        (heardScan solution check s careers).map Career.handle =
          survey.verdicts.map Prod.fst := by
  have scanning : Scanning (s.begun solution).pool solution (s.begun solution).pool.cursor :=
    (scanning_of_consistent consistent solution).stats _
  have heard := examineFrom_heard (s := s.begun solution) check _ 0 scanning
    (Nat.add_sub_cancel' scanning.consistent.cursor) tracks within
  apply ensures_scan
  · intro _ _ _ _
    trivial
  · intro _ idle
    -- no examination is left
    have none : (s.begun solution).pool.entries.size - (s.begun solution).pool.cursor = 0 :=
      Nat.sub_eq_zero_of_le idle
    unfold heardScan
    dsimp only
    rw [none] at heard ⊢
    exact heard
  · intro _ _
    exact ensures_survey.2 heard

end Stock

/-! ### The checks of a run -/

/-- A scan finds a user of its object for every entry; other calls need not. -/
def StockCall.Covers (s : Stock kind α) : StockCall kind α → Prop
  | scan _ _ => s.Covered
  | _ => True

/-- A pool with the careers of its entries and all checks so far. -/
structure Docket (kind : Kind) (α : Type) where
  chronicle : Chronicle kind α
  /-- The serial number of the entry that was checked, and the solution. -/
  checks : List (Nat × Nat)

namespace Docket

def start (key : Key α) (ageLimit : Nat) : Docket kind α :=
  ⟨.start key ageLimit, []⟩

variable [Poolable α]

/-- Makes a call and writes its checks down. -/
def observe (docket : Docket kind α) (call : StockCall kind α) (registry : Registry kind α) :
    Docket kind α :=
  let s : Stock kind α := ⟨docket.chronicle.pool, registry⟩
  match call with
  | .scan solution check =>
      let done := (Stock.scan solution check) s
      if done.result.isOk then
        { chronicle := docket.chronicle.observe (.scan solution check) registry
          checks := docket.checks ++
            (s.heardScan solution check docket.chronicle.careers).map (·.serial, solution) }
      else { docket with chronicle := { docket.chronicle with pool := done.state.pool } }
  | call => { docket with chronicle := docket.chronicle.observe call registry }

/-- Any number of calls on a pool that was empty at first, in which scans find what is stored. -/
def Reached (docket : Docket kind α) : Prop :=
  ∃ (key : Key α) (ageLimit : Nat), Relation.ReflTransGen
    (fun docket docket' : Docket kind α => ∃ (call : StockCall kind α) (registry : Registry kind α),
      call.Covers ⟨docket.chronicle.pool, registry⟩ ∧ docket.observe call registry = docket')
    (start key ageLimit) docket

variable {docket : Docket kind α} {registry : Registry kind α}

theorem observe_pool (call : StockCall kind α) (registry : Registry kind α) :
    (docket.observe call registry).chronicle.pool =
      (call.perform ⟨docket.chronicle.pool, registry⟩).state.pool := by
  cases call with
  | scan solution check =>
    unfold observe
    dsimp only
    split
    · exact Chronicle.observe_pool _ registry
    · exact congrArg Stock.pool (Action.discard_state _ _).symm
  | _ => exact Chronicle.observe_pool _ registry

theorem observe_scan {solution : Nat} {check : Check kind α}
    (completes : (StockCall.scan solution check).Completes ⟨docket.chronicle.pool, registry⟩) :
    docket.observe (.scan solution check) registry =
      { chronicle := docket.chronicle.observe (.scan solution check) registry
        checks := docket.checks ++ (Stock.heardScan solution check
          ⟨docket.chronicle.pool, registry⟩ docket.chronicle.careers).map (·.serial, solution) } := by
  unfold observe
  dsimp only
  rw [if_pos (show ((Stock.scan solution check) _).result.isOk = true from completes)]

/-- No entry was checked against a solution later than its last one, or the pool's. -/
structure Sound (docket : Docket kind α) : Prop where
  reached : docket.chronicle.Reached
  earlier : ∀ check ∈ docket.checks, check.1 < docket.chronicle.added
  dated : ∀ career ∈ docket.chronicle.careers, ∀ solution,
    (career.serial, solution) ∈ docket.checks →
      ∃ last, career.checked = some last ∧ solution ≤ last
  recent : ∀ career ∈ docket.chronicle.careers, ∀ last, career.checked = some last →
    ∃ processed, docket.chronicle.pool.processed = some processed ∧ last ≤ processed
  once : docket.checks.Nodup

end Docket

/-- Only scans move a pool on to another solution. -/
theorem Chronicle.processed_quiet [Poolable α] {chronicle : Chronicle kind α}
    {call : StockCall kind α} (quiet : call.isScan = false) (registry : Registry kind α) :
    (chronicle.observe call registry).pool.processed = chronicle.pool.processed := by
  let s : Stock kind α := ⟨chronicle.pool, registry⟩
  have appended {pool : Pool kind α}
      (added : pool = s.pool ∨ ∃ hash handle, pool = s.pool.push handle hash) :
      pool.processed = s.pool.processed := by
    obtain rfl | ⟨_, _, rfl⟩ := added <;> rfl
  rw [observe_pool]
  cases call with
  | scan => cases quiet
  | reserve additional =>
    exact congrArg Pool.processed (Action.reaches_iff.1 (Stock.reserve_pool (s := s) additional))
  | add handle =>
    apply appended
    exact (Action.reaches_iff.1 (Stock.add_pool (s := s) handle)).imp id
      fun ⟨hash, pushed⟩ => ⟨hash, handle, pushed⟩
  | addIfNew handle =>
    apply appended
    have added := Action.discard_reaches.2 (Stock.addIfNew_pool (s := s) handle)
    exact (Action.reaches_iff.1 added).imp id fun ⟨hash, pushed⟩ => ⟨hash, handle, pushed⟩
  | remove handle =>
    have removed := Action.reaches_iff.1 (Stock.remove_pool (s := s) handle)
    obtain ⟨position, entry, _, _, pool⟩ | ⟨_, pool⟩ := removed
    · exact (congrArg Pool.processed pool).trans (Pool.processed_detach _ _ _)
    · exact congrArg Pool.processed pool
  | clear =>
    have emptied := Action.reaches_iff.1 (Stock.clear_pool (s := s))
    exact (congrArg Pool.processed emptied :)

namespace Chronicle

variable [Poolable α] {chronicle next : Chronicle kind α} {solution : Nat}
  {heard : List (Career kind)}

/-- A scan checks the entries that were not checked against its solution, and what it leaves has
been checked. -/
structure Scans (solution : Nat) (heard : List (Career kind)) (chronicle next : Chronicle kind α) :
    Prop where
  recent : ∀ now, chronicle.pool.processed = some now → now ≤ solution
  processed : next.pool.processed = some solution
  distinct : (heard.map Career.serial).Nodup
  pending : ∀ career,
    career ∈ heard ↔ career ∈ chronicle.careers ∧ career.checked ≠ some solution
  checked : ∀ career ∈ next.careers,
    career.checked = some solution ∧ ∃ old ∈ chronicle.careers, old.serial = career.serial

theorem observe_scans {check : Check kind α} {registry : Registry kind α}
    (reached : chronicle.Reached) (covered : (Stock.mk chronicle.pool registry).Covered)
    (completes : (StockCall.scan solution check).Completes ⟨chronicle.pool, registry⟩) :
    Scans solution (Stock.heardScan solution check ⟨chronicle.pool, registry⟩ chronicle.careers)
      chronicle (chronicle.observe (.scan solution check) registry) := by
  let s : Stock kind α := ⟨chronicle.pool, registry⟩
  have faithful := reached.faithful
  have consistent := reached.pool.consistent
  obtain ⟨survey, ended⟩ := completes.survey
  obtain ⟨recent, processed⟩ := Action.ensures_of_ok ended
    (Stock.scan_covered covered consistent solution check)
  obtain ⟨hears, _⟩ := Action.yields_iff.1
    (Stock.scan_heard (s := s) consistent faithful.tracks faithful.within) survey ended
  obtain ⟨_, _, _, _, culls⟩ := faithful.observe_scan consistent completes
  refine ⟨recent, ?_, ?_, fun career => hears.mem_iff.trans mem_pending,
    fun career member => ?_⟩
  · have same : ((StockCall.scan solution check).perform s).state =
        ((Stock.scan solution check) s).state := Action.discard_state _ _
    rw [observe_pool, same]
    exact processed
  · apply ((hears.map Career.serial).nodup_iff).2
    exact faithful.distinct.sublist (List.filter_sublist.map Career.serial)
  · obtain ⟨old, there, rfl, _⟩ := mem_remaining.1 (culls.careers.mem_iff.1 member)
    refine ⟨?_, old, there, Career.serial_scanned.symm⟩
    by_cases before : old.checked = some solution
    · rw [Career.scanned_before before]
      exact before
    · obtain ⟨item, got⟩ := culls.checkable old there before
      rw [Career.scanned_now before got]
      rfl

end Chronicle

namespace Docket.Sound

variable [Poolable α] {docket : Docket kind α} {registry : Registry kind α} {solution : Nat}
  {check : Check kind α}

theorem start (key : Key α) (ageLimit : Nat) : (Docket.start key ageLimit : Docket kind α).Sound where
  reached := .start key ageLimit
  earlier _ member := nomatch member
  dated _ member := nomatch member
  recent _ member := nomatch member
  once := .nil

theorem quiet (sound : docket.Sound) {call : StockCall kind α} (quiet : call.isScan = false)
    (completes : call.Completes ⟨docket.chronicle.pool, registry⟩) :
    Sound { docket with chronicle := docket.chronicle.observe call registry } := by
  have processed : (docket.chronicle.observe call registry).pool.processed =
      docket.chronicle.pool.processed := Chronicle.processed_quiet quiet registry
  have passed := Chronicle.observe_quiet sound.reached.faithful.tracks quiet registry
  have before (career : Career kind)
      (member : career ∈ (docket.chronicle.observe call registry).careers) :
      career ∈ docket.chronicle.careers ∨
        career.serial = docket.chronicle.added ∧ career.checked = none := by
    obtain ⟨fewer, _⟩ | ⟨handle, careers, _⟩ := passed.careers
    · exact .inl (fewer.subset member)
    · rw [careers, List.mem_append, List.mem_singleton] at member
      exact member.imp id fun new => ⟨congrArg Career.serial new, congrArg Career.checked new⟩
  refine ⟨sound.reached.observe completes, fun check member => ?_, fun career member => ?_,
    fun career member => ?_, sound.once⟩
  · have early := sound.earlier check member
    obtain ⟨_, added⟩ | ⟨_, _, added⟩ := passed.careers
    · exact early.trans_eq added.symm
    · exact (Nat.lt_succ_of_lt early).trans_eq added.symm
  · intro solution checked
    obtain there | ⟨serial, _⟩ := before career member
    · exact sound.dated career there solution checked
    · exact absurd serial (Nat.ne_of_lt (sound.earlier _ checked))
  · intro last checked
    dsimp only
    rw [processed]
    obtain there | ⟨_, never⟩ := before career member
    · exact sound.recent career there last checked
    · cases never.symm.trans checked

theorem scanned (sound : docket.Sound)
    (covered : (Stock.mk docket.chronicle.pool registry).Covered)
    (completes : (StockCall.scan solution check).Completes ⟨docket.chronicle.pool, registry⟩) :
    (docket.observe (.scan solution check) registry).Sound := by
  have scans := Chronicle.observe_scans sound.reached covered completes
  -- whatever was written down before is not later than this solution
  have dated (career : Career kind) (member : career ∈ docket.chronicle.careers) (earlier : Nat)
      (checked : (career.serial, earlier) ∈ docket.checks) :
      ∃ last, career.checked = some last ∧ earlier ≤ last ∧ last ≤ solution := by
    obtain ⟨last, is, later⟩ := sound.dated career member earlier checked
    obtain ⟨now, current, before⟩ := sound.recent career member last is
    exact ⟨last, is, later, before.trans (scans.recent now current)⟩
  rw [Docket.observe_scan completes]
  refine ⟨sound.reached.observe completes, fun entry member => ?_, fun career member => ?_,
    fun career member => ?_, ?_⟩
  · obtain early | new := List.mem_append.1 member
    · exact sound.earlier entry early
    · obtain ⟨career, there, rfl⟩ := List.mem_map.1 new
      exact sound.reached.faithful.earlier career ((scans.pending career).1 there).1
  · intro other written
    obtain ⟨is, old, there, serial⟩ := scans.checked career member
    refine ⟨solution, is, ?_⟩
    obtain early | new := List.mem_append.1 written
    · rw [← serial] at early
      obtain ⟨last, _, later, before⟩ := dated old there other early
      exact later.trans before
    · obtain ⟨_, _, same⟩ := List.mem_map.1 new
      exact (congrArg Prod.snd same).ge
  · intro last is
    cases (scans.checked career member).1.symm.trans is
    exact ⟨solution, scans.processed, Nat.le_refl _⟩
  · apply sound.once.append
    · apply List.Nodup.of_map Prod.fst
      rw [List.map_map]
      exact scans.distinct
    · intro entry early new
      obtain ⟨career, there, rfl⟩ := List.mem_map.1 new
      obtain ⟨member, fresh⟩ := (scans.pending career).1 there
      obtain ⟨last, is, later, before⟩ := dated career member solution early
      exact fresh (is.trans (congrArg some (Nat.le_antisymm before later)))

theorem observe (sound : docket.Sound) {call : StockCall kind α}
    (covers : call.Covers ⟨docket.chronicle.pool, registry⟩) :
    (docket.observe call registry).Sound := by
  cases call with
  | scan solution check =>
    cases ended : ((Stock.scan solution check) ⟨docket.chronicle.pool, registry⟩).result with
    | ok survey =>
      apply sound.scanned covers
      change ((Stock.scan solution check) _).result.isOk = true
      rw [ended]
      rfl
    | error e =>
      -- an older solution, which changes nothing
      obtain ⟨same, _⟩ := Action.ensures_of_error ended
        (Stock.scan_covered covers sound.reached.pool.consistent solution check)
      have written : docket.observe (.scan solution check) registry = docket := by
        unfold Docket.observe
        dsimp only
        rw [ended, if_neg (by exact fun done => nomatch done), same]
      rw [written]
      exact sound
  | _ => exact sound.quiet rfl trivial

/-- A scan writes down one check for each of its verdicts, of an entry with the same handle. -/
theorem written (sound : docket.Sound) {survey : Survey kind}
    (ended : ((Stock.scan solution check) ⟨docket.chronicle.pool, registry⟩).result = .ok survey) :
    ∃ heard : List (Career kind), (∀ career ∈ heard, career ∈ docket.chronicle.careers) ∧
      heard.map Career.handle = survey.verdicts.map Prod.fst ∧
      (docket.observe (.scan solution check) registry).checks =
        docket.checks ++ heard.map (·.serial, solution) := by
  have faithful := sound.reached.faithful
  have completes : (StockCall.scan solution check).Completes ⟨docket.chronicle.pool, registry⟩ := by
    change ((Stock.scan solution check) _).result.isOk = true
    rw [ended]
    rfl
  obtain ⟨hears, handles⟩ := Action.yields_iff.1
    (Stock.scan_heard (s := ⟨docket.chronicle.pool, registry⟩) sound.reached.pool.consistent
      faithful.tracks faithful.within) survey ended
  refine ⟨_, fun career member => ?_, handles, ?_⟩
  · exact (mem_pending.1 (hears.mem_iff.1 member)).1
  · rw [Docket.observe_scan completes]

theorem of_reached (reached : docket.Reached) : docket.Sound := by
  obtain ⟨key, ageLimit, calls⟩ := reached
  induction calls with
  | refl => exact .start key ageLimit
  | tail _ last ih =>
    obtain ⟨call, registry, covers, rfl⟩ := last
    exact ih.observe covers

end Docket.Sound

/-- A scan of a pool that holds a use for every entry checks what was not checked yet, each entry
once, and loses nothing but what it evicts. Over a run of such scans no entry is checked twice
against one solution. -/
theorem scan_exact [Poolable α] {pool : Pool kind α} (reached : pool.Reached)
    {registry : Registry kind α} (covered : (Stock.mk pool registry).Covered) {solution : Nat}
    (recent : ∀ last, pool.processed = some last → last ≤ solution)
    (check : Handle kind → α → Verdict) :
    (∃ survey, ((Stock.scan solution fun _ => check) ⟨pool, registry⟩).result = .ok survey ∧
      (Stock.mk pool registry).Heeds check (registry.verdict check) ∧
      Stock.Inspected (registry.verdict check) solution ⟨pool, registry⟩ survey
        ((Stock.scan solution fun _ => check) ⟨pool, registry⟩).state) ∧
    ∀ docket : Docket kind α, docket.Reached → docket.checks.Nodup ∧
      ∀ (solution : Nat) (check : Check kind α) (registry : Registry kind α)
        (survey : Survey kind),
        ((Stock.scan solution check) ⟨docket.chronicle.pool, registry⟩).result = .ok survey →
          ∃ heard : List (Career kind), (∀ career ∈ heard, career ∈ docket.chronicle.careers) ∧
            heard.map Career.handle = survey.verdicts.map Prod.fst ∧
            (docket.observe (.scan solution check) registry).checks =
              docket.checks ++ heard.map (·.serial, solution) := by
  have heeds := covered.heeds check
  constructor
  · have scanned : (Stock.scan solution fun _ => check).Ensures _ _ _ :=
      Stock.scan_inspected covered heeds reached.consistent
    cases ended : ((Stock.scan solution fun _ => check) ⟨pool, registry⟩).result with
    | ok survey => exact ⟨survey, rfl, heeds, (Action.ensures_of_ok ended scanned).2⟩
    | error e =>
      obtain ⟨_, last, current, older⟩ := Action.ensures_of_error ended scanned
      exact absurd (recent last current) (Nat.not_le.2 older)
  · intro docket run
    have sound := Docket.Sound.of_reached run
    exact ⟨sound.once, fun solution check registry survey ended => sound.written ended⟩

/-- Two rows, of which the first is useless. The scan evicts it, and checks the second row where
that was moved to. -/
theorem scan_exact_moved :
    let rows := ((Registry.empty.insert ⟨"a", ⟨1, []⟩, 0, 1, false⟩).2.insert
      (⟨"b", ⟨1, []⟩, 0, 2, false⟩ : Row)).2
    let check (row : Handle .row) (_ : Row) : Verdict :=
      if row.slot = 0 then .useless else .loaded
    let docket := ((Docket.start (Row.key 0) 0).observe (.add ⟨0, 0⟩) rows).observe
      (.add ⟨1, 0⟩) rows
    let scanned := docket.observe (.scan 1 fun _ => check) rows
    (∃ survey, ((Stock.scan 1 fun _ => check) ⟨docket.chronicle.pool, rows⟩).result = .ok survey ∧
        (survey.verdicts : Multiset (RowId × Verdict)) =
          {(⟨0, 0⟩, .useless), (⟨1, 0⟩, .loaded)}) ∧
      scanned.checks = [(0, 1), (1, 1)] ∧ scanned.checks.Nodup := by
  intro rows check docket scanned
  have covered : (Stock.mk docket.chronicle.pool rows).Covered := .of_held (by decide)
  have run : docket.Reached :=
    ⟨Row.key 0, 0, .tail (.tail .refl ⟨.add ⟨0, 0⟩, rows, trivial, rfl⟩)
      ⟨.add ⟨1, 0⟩, rows, trivial, rfl⟩⟩
  have reached : docket.chronicle.pool.Reached := (Docket.Sound.of_reached run).reached.pool
  obtain ⟨key, ageLimit, calls⟩ := run
  have run' : scanned.Reached :=
    ⟨key, ageLimit, calls.tail ⟨.scan 1 fun _ => check, rows, covered, rfl⟩⟩
  obtain ⟨⟨survey, ended, _, inspected⟩, distinct⟩ :=
    scan_exact reached covered (fun last none => nomatch none) check
  refine ⟨⟨survey, ended, ?_⟩, by decide, (distinct scanned run').1⟩
  rw [inspected.given]
  decide

/-- A row stored twice, of which only one use is left. The scan evicts the first entry, which
frees the row, and is refused at the second one. -/
theorem scan_exact_uncovered :
    let rows := (Registry.empty.insert (⟨"a", ⟨1, []⟩, 0, 1, false⟩ : Row)).2
    let fresh : Pool .row Row := .empty (Row.key 0) 0
    let pool := fresh.after [(.add ⟨0, 0⟩, rows), (.add ⟨0, 0⟩, rows)]
    pool.Reached ∧ (∀ handle ∈ pool.handles, rows.contains handle = true) ∧
      (∀ last, pool.processed = some last → last ≤ 1) ∧
      ((Stock.scan 1 fun _ _ _ => .useless) ⟨pool, rows⟩).result =
        .error (Handle.stale (⟨0, 0⟩ : RowId)) := by
  intro rows fresh pool
  refine ⟨Pool.after_reached _ _ _, by decide, fun last none => (nomatch none), by decide⟩

end BranchCutPrice
