import BranchCutPrice.Proofs.Aging

/-!
How long entries stay in a pool. Calls other than scans leave the ages alone, so that the law
of aging holds after any number of calls, and an entry that is useless in one scan after another
leaves in the first scan that takes it beyond the age limit.
-/

namespace BranchCutPrice

variable {kind : Kind} {α : Type}

/-! ### Removals -/

section Removal

open BranchCutPrice.Action Pool

variable {registry : Registry kind α} {handle : Handle kind} {position : Nat}

theorem Pool.findAmong_inside {pool : Pool kind α} {item : α} {positions : List Nat}
    (live : ∃ item, registry.get handle = .ok item)
    (found : pool.findAmong registry handle item positions = .ok (some position)) :
    ∃ entry, pool.entries[position]? = some entry ∧
      ∃ stored, registry.get entry.handle = .ok stored := by
  fun_induction pool.findAmong registry handle item positions with
  | case1 => cases found
  | case2 first rest there ih => exact ih found
  | case3 first rest entry there same =>
    cases found
    exact ⟨entry, there, same ▸ live⟩
  | case4 first rest entry there different ih =>
    cases got : registry.get entry.handle with
    | error e => simp [got, bind, Except.bind] at found
    | ok stored =>
      simp only [got, bind, Except.bind] at found
      split at found
      · cases found
        exact ⟨entry, there, stored, got⟩
      · exact ih found

/-- An entry that a search ends at is there, and so is its object. -/
theorem Pool.find_inside {pool : Pool kind α}
    (found : pool.find registry handle = .ok (some position)) :
    ∃ entry, pool.entries[position]? = some entry ∧
      ∃ stored, registry.get entry.handle = .ok stored := by
  unfold find at found
  cases got : registry.get handle with
  | error e => simp [got, bind, Except.bind] at found
  | ok item =>
    rw [got] at found
    exact findAmong_inside ⟨item, got⟩ found

theorem Stock.remove_pool [Poolable α] {s : Stock kind α} (handle : Handle kind) :
    (remove handle).Reaches s fun s' =>
      (∃ position entry, s.pool.find s.registry handle = .ok (some position) ∧
        s.pool.entries[position]? = some entry ∧ s'.pool = s.pool.detach position entry) ∨
      (∀ position, s.pool.find s.registry handle ≠ .ok (some position)) ∧ s'.pool = s.pool := by
  unfold Reaches remove
  rw [ensures_bind]
  apply ensures_read.2
  constructor
  · intro position found
    cases position with
    | some position =>
      obtain ⟨entry, there, _⟩ := find_inside found
      have detached := removeAt_pool (s := s) position
      rw [there] at detached
      exact detached.mono fun _ pool => .inl ⟨position, entry, found, there, pool⟩
    | none =>
      have missing (position : Nat) :
          s.pool.find s.registry handle ≠ .ok (some position) := by
        rw [found]
        exact fun same => nomatch same
      rw [ensures_bind]
      exact ensures_read.2 ⟨fun _ _ => .inr ⟨missing, rfl⟩, fun _ _ => .inr ⟨missing, rfl⟩⟩
  · intro e refused
    refine .inr ⟨fun position => ?_, rfl⟩
    rw [refused]
    exact fun same => nomatch same

end Removal

/-- Another entry comes with a career of its own. -/
theorem Pool.Tracks.push {pool : Pool kind α} {careers : List (Career kind)}
    (tracks : pool.Tracks careers) (handle : Handle kind) (hash : UInt64) (serial : Nat) :
    (pool.push handle hash).Tracks (careers ++ [⟨serial, handle, none, []⟩]) := by
  have entries : (pool.push handle hash).entries.toList =
      pool.entries.toList ++ [⟨handle, 0, none, pool.entries.size, hash⟩] := Array.toList_push
  unfold Tracks
  rw [entries, List.map_append, List.map_append, tracks]
  rfl

theorem StockCall.Completes.survey [Poolable α] {s : Stock kind α} {solution : Nat}
    {check : Check kind α} (completes : (scan solution check).Completes s) :
    ∃ survey, ((Stock.scan solution check) s).result = .ok survey := by
  change ((Stock.scan solution check) s).result.isOk = true at completes
  cases ended : ((Stock.scan solution check) s).result with
  | ok survey => exact ⟨survey, rfl⟩
  | error e =>
    rw [ended] at completes
    cases completes

def StockCall.isScan : StockCall kind α → Bool
  | scan _ _ => true
  | _ => false

namespace Chronicle

variable {chronicle next : Chronicle kind α}

/-- Whether the entry that was added after `serial` others is still there. -/
def Holds (chronicle : Chronicle kind α) (serial : Nat) : Prop :=
  ∃ career ∈ chronicle.careers, career.serial = serial

/-- Every career belongs to an entry, whose age is its number of useless verdicts in a row. -/
structure Faithful (chronicle : Chronicle kind α) : Prop where
  tracks : chronicle.pool.Tracks chronicle.careers
  within : ∀ career ∈ chronicle.careers, career.streak ≤ chronicle.pool.ageLimit
  distinct : (chronicle.careers.map Career.serial).Nodup
  earlier : ∀ career ∈ chronicle.careers, career.serial < chronicle.added

/-- No verdict is given: entries may have left, or a new one has come. -/
structure Quiet (chronicle next : Chronicle kind α) : Prop where
  limit : next.pool.ageLimit = chronicle.pool.ageLimit
  tracks : next.pool.Tracks next.careers
  careers :
    next.careers.Subperm chronicle.careers ∧ next.added = chronicle.added ∨
      ∃ handle, next.careers = chronicle.careers ++ [⟨chronicle.added, handle, none, []⟩] ∧
        next.added = chronicle.added + 1

/-- What a scan does: every entry that was not checked against its solution gets a verdict, and
those leave that were useless once too often. -/
structure Culls (chronicle next : Chronicle kind α) (registry : Registry kind α)
    (solution : Nat) (met : Nat → Handle kind → α → Verdict) : Prop where
  checkable : Checkable registry solution chronicle.careers
  careers : next.careers.Perm
    (remaining registry solution chronicle.pool.ageLimit met chronicle.careers)
  leaves : ∀ career ∈ chronicle.careers, ¬next.Holds career.serial ↔
    (career.scanned registry solution met).streak = chronicle.pool.ageLimit + 1

theorem Faithful.start (key : Key α) (ageLimit : Nat) :
    (start key ageLimit : Chronicle kind α).Faithful :=
  ⟨rfl, by simp [Chronicle.start], .nil, by simp [Chronicle.start]⟩

namespace Faithful

variable {registry : Registry kind α} {solution : Nat} {met : Nat → Handle kind → α → Verdict}
  {career other : Career kind}

/-- An entry has one career. -/
theorem eq_of_serial (faithful : chronicle.Faithful) (member : career ∈ chronicle.careers)
    (member' : other ∈ chronicle.careers) (same : other.serial = career.serial) :
    other = career :=
  List.inj_on_of_nodup_map faithful.distinct member' member same

theorem quiet (faithful : chronicle.Faithful) (quiet : chronicle.Quiet next) :
    next.Faithful := by
  obtain ⟨limit, tracks, ⟨fewer, added⟩ | ⟨handle, careers, added⟩⟩ := quiet
  · refine ⟨tracks, fun career member => ?_, ?_, fun career member => ?_⟩
    · rw [limit]
      exact faithful.within career (fewer.subset member)
    · obtain ⟨kept, same, part⟩ := fewer
      exact (same.map Career.serial).nodup_iff.1 (faithful.distinct.sublist (part.map _))
    · rw [added]
      exact faithful.earlier career (fewer.subset member)
  · have listed (career : Career kind) : career ∈ next.careers ↔
        career ∈ chronicle.careers ∨ career = ⟨chronicle.added, handle, none, []⟩ := by
      rw [careers, List.mem_append, List.mem_singleton]
    refine ⟨tracks, fun career member => ?_, ?_, fun career member => ?_⟩
    · rw [limit]
      obtain member | rfl := (listed career).1 member
      · exact faithful.within career member
      · exact Nat.zero_le _
    · rw [careers, List.map_append]
      apply faithful.distinct.append (List.nodup_singleton _)
      intro serial member new
      obtain ⟨career, there, rfl⟩ := List.mem_map.1 member
      exact absurd (List.mem_singleton.1 new) (Nat.ne_of_lt (faithful.earlier career there))
    · rw [added]
      obtain member | rfl := (listed career).1 member
      · exact Nat.lt_succ_of_lt (faithful.earlier career member)
      · exact Nat.lt_succ_self _

/-- The career of an entry that a scan leaves is known. -/
theorem eq_scanned (faithful : chronicle.Faithful)
    (careers : next.careers.Perm
      (remaining registry solution chronicle.pool.ageLimit met chronicle.careers))
    (member : career ∈ chronicle.careers) (member' : other ∈ next.careers)
    (same : other.serial = career.serial) :
    other = career.scanned registry solution met ∧
      other.streak ≤ chronicle.pool.ageLimit := by
  obtain ⟨old, there, rfl, young⟩ := mem_remaining.1 (careers.mem_iff.1 member')
  rw [Career.serial_scanned] at same
  cases faithful.eq_of_serial member there same
  exact ⟨rfl, young⟩

/-- An entry stays in a scan just when its number of useless verdicts stays within the limit. -/
theorem holds_scanned (faithful : chronicle.Faithful)
    (careers : next.careers.Perm
      (remaining registry solution chronicle.pool.ageLimit met chronicle.careers))
    (member : career ∈ chronicle.careers) : next.Holds career.serial ↔
      (career.scanned registry solution met).streak ≤ chronicle.pool.ageLimit := by
  constructor
  · rintro ⟨other, there, same⟩
    obtain ⟨rfl, young⟩ := faithful.eq_scanned careers member there same
    exact young
  · intro young
    refine ⟨career.scanned registry solution met, ?_, Career.serial_scanned⟩
    exact careers.mem_iff.2 (mem_remaining.2 ⟨career, member, rfl, young⟩)

/-- No number jumps over the first one beyond the limit. -/
theorem leaves_scanned (faithful : chronicle.Faithful)
    (careers : next.careers.Perm
      (remaining registry solution chronicle.pool.ageLimit met chronicle.careers))
    (member : career ∈ chronicle.careers) : ¬next.Holds career.serial ↔
      (career.scanned registry solution met).streak = chronicle.pool.ageLimit + 1 := by
  have before := faithful.within career member
  have after : (career.scanned registry solution met).streak ≤ career.streak + 1 :=
    Career.streak_scanned_le
  rw [faithful.holds_scanned careers member]
  omega

theorem scanned (faithful : chronicle.Faithful) (tracks : next.pool.Tracks next.careers)
    (limit : next.pool.ageLimit = chronicle.pool.ageLimit)
    (careers : next.careers.Perm
      (remaining registry solution chronicle.pool.ageLimit met chronicle.careers))
    (added : next.added = chronicle.added) : next.Faithful := by
  refine ⟨tracks, fun other there => ?_, ?_, fun other there => ?_⟩
  · obtain ⟨_, _, _, young⟩ := mem_remaining.1 (careers.mem_iff.1 there)
    exact young.trans_eq limit.symm
  · have serials : (chronicle.careers.map (Career.scanned registry solution met)).map
        Career.serial = chronicle.careers.map Career.serial := by
      rw [List.map_map]
      exact List.map_congr_left fun _ _ => Career.serial_scanned
    apply (careers.map Career.serial).nodup_iff.2
    apply List.Nodup.sublist (List.filter_sublist.map Career.serial)
    rw [serials]
    exact faithful.distinct
  · obtain ⟨old, member, rfl, _⟩ := mem_remaining.1 (careers.mem_iff.1 there)
    rw [Career.serial_scanned, added]
    exact faithful.earlier old member

end Faithful

theorem Quiet.of_added (tracks : chronicle.pool.Tracks chronicle.careers) {handle : Handle kind}
    {pool : Pool kind α}
    (added : pool = chronicle.pool ∨ ∃ hash, pool = chronicle.pool.push handle hash) :
    chronicle.Quiet (if chronicle.pool.entries.size < pool.entries.size then
        { pool := pool
          careers := chronicle.careers ++ [⟨chronicle.added, handle, none, []⟩]
          added := chronicle.added + 1 }
      else { chronicle with pool := pool }) := by
  obtain rfl | ⟨hash, rfl⟩ := added
  · rw [if_neg (Nat.lt_irrefl _)]
    exact ⟨rfl, tracks, .inl ⟨.refl _, rfl⟩⟩
  · have longer : chronicle.pool.entries.size <
        (chronicle.pool.push handle hash).entries.size := by
      change _ < (Array.push _ _).size
      rw [Array.size_push]
      exact Nat.lt_succ_self _
    rw [if_pos longer]
    exact ⟨rfl, tracks.push handle hash _, .inr ⟨handle, rfl, rfl⟩⟩

variable [Poolable α]

theorem observe_quiet (tracks : chronicle.pool.Tracks chronicle.careers)
    {call : StockCall kind α} (quiet : call.isScan = false) (registry : Registry kind α) :
    chronicle.Quiet (chronicle.observe call registry) := by
  let s : Stock kind α := ⟨chronicle.pool, registry⟩
  cases call with
  | scan => cases quiet
  | reserve additional =>
    have same := Action.reaches_iff.1 (Stock.reserve_pool (s := s) additional)
    exact ⟨congrArg Pool.ageLimit same, tracks.of_entries (congrArg Pool.entries same),
      .inl ⟨.refl _, rfl⟩⟩
  | add handle =>
    exact .of_added tracks (Action.reaches_iff.1 (Stock.add_pool (s := s) handle))
  | addIfNew handle =>
    exact .of_added tracks
      (Action.reaches_iff.1 (Action.discard_reaches.2 (Stock.addIfNew_pool (s := s) handle)))
  | remove handle =>
    have removed := Action.reaches_iff.1 (Stock.remove_pool (s := s) handle)
    obtain ⟨position, entry, found, there, pool⟩ | ⟨missing, pool⟩ := removed
    · have written : chronicle.observe (.remove handle) registry =
          ⟨chronicle.pool.detach position entry, swapOut chronicle.careers position,
            chronicle.added⟩ := by
        unfold observe
        dsimp only
        rw [found]
        exact congrArg (Chronicle.mk · _ _) pool
      obtain ⟨career, member, _⟩ := tracks.career_of_entry there
      rw [written]
      refine ⟨Pool.ageLimit_detach _ _ _, tracks.detach there, .inl ⟨?_, rfl⟩⟩
      exact (List.sublist_cons_self _ _).subperm.trans (swapOut_perm member).subperm
    · have written : chronicle.observe (.remove handle) registry = chronicle := by
        unfold observe
        dsimp only
        split
        · rename_i position found
          exact absurd found (missing position)
        · exact congrArg (Chronicle.mk · _ _) pool
      rw [written]
      exact ⟨rfl, tracks, .inl ⟨.refl _, rfl⟩⟩
  | clear =>
    have emptied := Action.reaches_iff.1 (Stock.clear_pool (s := s))
    refine ⟨(congrArg Pool.ageLimit emptied :), ?_, .inl ⟨List.nil_subperm, rfl⟩⟩
    exact congrArg (fun pool => pool.entries.toList.map PoolEntry.gist) emptied

theorem Faithful.observe_scan {registry : Registry kind α} {solution : Nat}
    {check : Check kind α} (faithful : chronicle.Faithful) (consistent : chronicle.pool.Consistent)
    (completes : (StockCall.scan solution check).Completes ⟨chronicle.pool, registry⟩) :
    (chronicle.observe (.scan solution check) registry).Faithful ∧
      (chronicle.observe (.scan solution check) registry).pool.ageLimit =
        chronicle.pool.ageLimit ∧
      ∃ turn : Nat → Nat, Stock.Turns solution 0 chronicle.careers turn ∧
        chronicle.Culls (chronicle.observe (.scan solution check) registry) registry solution
          fun serial => check (turn serial) := by
  let next := chronicle.observe (.scan solution check) registry
  obtain ⟨survey, ended⟩ := completes.survey
  have pool : next.pool = ((Stock.scan solution check) ⟨chronicle.pool, registry⟩).state.pool :=
    congrArg Stock.pool (Action.discard_state _ _)
  obtain ⟨turn, turns, tracks, limit, careers, checkable⟩ := Action.yields_iff.1
    (Stock.scan_culls (s := ⟨chronicle.pool, registry⟩) consistent faithful.tracks
      faithful.within faithful.distinct) survey ended
  rw [← pool] at tracks limit
  have careers : next.careers.Perm (remaining registry solution chronicle.pool.ageLimit
      (fun serial => check (turn serial)) chronicle.careers) := careers
  exact ⟨faithful.scanned tracks limit careers rfl, limit, turn, turns, checkable, careers,
    fun _ => faithful.leaves_scanned careers⟩

variable {chronicle' : Chronicle kind α}

theorem Faithful.observe (faithful : chronicle.Faithful) (consistent : chronicle.pool.Consistent)
    {call : StockCall kind α} {registry : Registry kind α}
    (completes : call.Completes ⟨chronicle.pool, registry⟩) :
    (chronicle.observe call registry).Faithful := by
  cases scans : call.isScan with
  | false => exact faithful.quiet (observe_quiet faithful.tracks scans registry)
  | true =>
    cases call with
    | scan solution check => exact (faithful.observe_scan consistent completes).1
    | _ => cases scans

theorem Reached.faithful (reached : chronicle.Reached) : chronicle.Faithful := by
  obtain ⟨key, ageLimit, calls⟩ := reached
  induction calls with
  | refl => exact Faithful.start key ageLimit
  | @tail chronicle _ before last ih =>
    obtain ⟨call, registry, completes, rfl⟩ := last
    have reached : chronicle.Reached := ⟨key, ageLimit, before⟩
    exact ih.observe reached.pool.consistent completes

/-! ### Runs -/

theorem Reached.start (key : Key α) (ageLimit : Nat) :
    (start key ageLimit : Chronicle kind α).Reached :=
  ⟨key, ageLimit, .refl⟩

theorem Reached.observe (reached : chronicle.Reached) {call : StockCall kind α}
    {registry : Registry kind α} (completes : call.Completes ⟨chronicle.pool, registry⟩) :
    (chronicle.observe call registry).Reached := by
  obtain ⟨key, ageLimit, calls⟩ := reached
  exact ⟨key, ageLimit, calls.tail ⟨call, registry, completes, rfl⟩⟩

/-- An entry is found useless in each of `count` scans when it has its turn, while other calls
leave it in the pool. A scan gives no verdict on an entry that was checked against its solution
before, so that these scans are for later and later solutions. -/
inductive Dismissals (chronicle : Chronicle kind α) (serial : Nat) :
    (count : Nat) → Chronicle kind α → Prop
  | none : Dismissals chronicle serial 0 chronicle
  | scan {count : Nat} {chronicle' : Chronicle kind α} {career : Career kind} {solution : Nat}
      {check : Check kind α} {registry : Registry kind α} {turn : Nat → Nat}
      (earlier : Dismissals chronicle serial count chronicle')
      (member : career ∈ chronicle'.careers) (same : career.serial = serial)
      (fresh : career.checked ≠ some solution)
      (completes : (StockCall.scan solution check).Completes ⟨chronicle'.pool, registry⟩)
      (culls : chronicle'.Culls (chronicle'.observe (.scan solution check) registry) registry
        solution fun serial => check (turn serial))
      (useless : ∀ item, registry.get career.handle = .ok item →
        check (turn serial) career.handle item = .useless) :
      Dismissals chronicle serial (count + 1) (chronicle'.observe (.scan solution check) registry)
  | other {count : Nat} {chronicle' : Chronicle kind α} {call : StockCall kind α}
      {registry : Registry kind α} (earlier : Dismissals chronicle serial count chronicle')
      (quiet : call.isScan = false) (stays : (chronicle'.observe call registry).Holds serial) :
      Dismissals chronicle serial count (chronicle'.observe call registry)

/-- The entry is as old as it should be, or it is gone if that is beyond the limit. -/
structure Dismissed (chronicle : Chronicle kind α) (serial age bound : Nat) : Prop where
  reached : chronicle.Reached
  limit : chronicle.pool.ageLimit = bound
  earlier : serial < chronicle.added
  streak : ∀ career ∈ chronicle.careers, career.serial = serial → career.streak = age
  holds : chronicle.Holds serial ↔ age ≤ bound

theorem Dismissed.start {career : Career kind} (reached : chronicle.Reached)
    (member : career ∈ chronicle.careers) :
    chronicle.Dismissed career.serial career.streak chronicle.pool.ageLimit := by
  have faithful := reached.faithful
  refine ⟨reached, rfl, faithful.earlier career member, fun other there same => ?_, ?_⟩
  · rw [faithful.eq_of_serial member there same]
  · exact ⟨fun _ => faithful.within career member, fun _ => ⟨career, member, rfl⟩⟩

namespace Dismissed

variable {serial age bound : Nat} {registry : Registry kind α}

theorem scan (dismissed : chronicle.Dismissed serial age bound) {career : Career kind}
    {solution : Nat} {check : Check kind α} {turn : Nat → Nat}
    (member : career ∈ chronicle.careers) (same : career.serial = serial)
    (fresh : career.checked ≠ some solution)
    (completes : (StockCall.scan solution check).Completes ⟨chronicle.pool, registry⟩)
    (culls : chronicle.Culls (chronicle.observe (.scan solution check) registry) registry solution
      fun serial => check (turn serial))
    (useless : ∀ item, registry.get career.handle = .ok item →
      check (turn serial) career.handle item = .useless) :
    (chronicle.observe (.scan solution check) registry).Dismissed serial (age + 1) bound := by
  have faithful := dismissed.reached.faithful
  obtain ⟨_, limit, _⟩ := faithful.observe_scan dismissed.reached.pool.consistent completes
  obtain ⟨item, got⟩ := culls.checkable career member fresh
  have older : (career.scanned registry solution fun serial => check (turn serial)).streak =
      age + 1 := by
    rw [Career.scanned_now fresh got, same, useless item got, Career.streak_useless,
      dismissed.streak career member same]
  refine ⟨dismissed.reached.observe completes, limit.trans dismissed.limit, dismissed.earlier,
    fun other there same' => ?_, ?_⟩
  · rw [(faithful.eq_scanned culls.careers member there (same'.trans same.symm)).1]
    exact older
  · rw [← same, faithful.holds_scanned culls.careers member, older, dismissed.limit]

/-- The entry is not added a second time. -/
theorem other (dismissed : chronicle.Dismissed serial age bound) {call : StockCall kind α}
    (quiet : call.isScan = false) (stays : (chronicle.observe call registry).Holds serial) :
    (chronicle.observe call registry).Dismissed serial age bound := by
  have completes : call.Completes ⟨chronicle.pool, registry⟩ := by
    cases call with
    | scan => cases quiet
    | _ => trivial
  have passed := observe_quiet dismissed.reached.faithful.tracks quiet registry
  have before (career : Career kind)
      (member : career ∈ (chronicle.observe call registry).careers)
      (same : career.serial = serial) : career ∈ chronicle.careers := by
    obtain ⟨fewer, _⟩ | ⟨handle, careers, _⟩ := passed.careers
    · exact fewer.subset member
    · rw [careers, List.mem_append, List.mem_singleton] at member
      obtain member | rfl := member
      · exact member
      · exact absurd same (Nat.ne_of_gt dismissed.earlier)
  obtain ⟨career, member, same⟩ := stays
  have held : chronicle.Holds serial := ⟨career, before career member same, same⟩
  refine ⟨dismissed.reached.observe completes, passed.limit.trans dismissed.limit, ?_,
    fun other there same' => dismissed.streak other (before other there same') same', ?_⟩
  · obtain ⟨_, added⟩ | ⟨_, _, added⟩ := passed.careers
    · rw [added]
      exact dismissed.earlier
    · rw [added]
      exact Nat.lt_succ_of_lt dismissed.earlier
  · exact ⟨fun _ => dismissed.holds.1 held, fun _ => ⟨career, member, same⟩⟩

end Dismissed

theorem Dismissals.dismissed {count : Nat} {career : Career kind} (reached : chronicle.Reached)
    (member : career ∈ chronicle.careers)
    (dismissals : chronicle.Dismissals career.serial count chronicle') :
    chronicle'.Dismissed career.serial (career.streak + count) chronicle.pool.ageLimit := by
  induction dismissals with
  | none => exact .start reached member
  | scan _ there same fresh completes culls useless ih =>
    exact ih.scan there same fresh completes culls useless
  | other _ quiet stays ih => exact ih.other quiet stays

end Chronicle

/-- The law of aging, at any time of a run. The age of an entry is its number of useless
verdicts since it was added or last useful, which stays within the limit. In a scan each entry
that is judged has a turn of its own, and it leaves just when the verdict then takes the number to
one beyond the limit. An entry that is found useless in one scan after another stays as long as
the number of these scans and its age at the beginning are within the limit together. -/
theorem ages_counted [Poolable α] {chronicle : Chronicle kind α} (reached : chronicle.Reached) :
    chronicle.Faithful ∧
      (∀ (solution : Nat) (check : Check kind α) (registry : Registry kind α),
        (StockCall.scan solution check).Completes ⟨chronicle.pool, registry⟩ →
          ∃ turn : Nat → Nat, Stock.Turns solution 0 chronicle.careers turn ∧
            chronicle.Culls (chronicle.observe (.scan solution check) registry) registry solution
              fun serial => check (turn serial)) ∧
      ∀ career ∈ chronicle.careers, ∀ (count : Nat) (chronicle' : Chronicle kind α),
        chronicle.Dismissals career.serial count chronicle' →
          (chronicle'.Holds career.serial ↔
            career.streak + count ≤ chronicle.pool.ageLimit) := by
  have faithful := reached.faithful
  refine ⟨faithful, fun solution check registry completes => ?_,
    fun career member count chronicle' dismissals => ?_⟩
  · exact (faithful.observe_scan reached.pool.consistent completes).2.2
  · exact (dismissals.dismissed reached member).holds

/-- Two rows, of which the first is useless whenever it has its turn. It survives a scan. The other
row is then taken out, and the next scan evicts the first. -/
theorem ages_counted_evicted :
    let rows := ((Registry.empty.insert ⟨"a", ⟨1, []⟩, 0, 1, false⟩).2.insert
      (⟨"b", ⟨1, []⟩, 0, 2, false⟩ : Row)).2
    let check (asked : Nat) (row : Handle .row) (_ : Row) : Verdict :=
      if row.slot = 0 then .useless else if asked = 0 then .useful 1 else .loaded
    let chronicle := ((Chronicle.start ⟨fun _ => 0, fun _ _ => false⟩ 1).observe
      (.add ⟨0, 0⟩) rows).observe (.add ⟨1, 0⟩) rows
    let once := chronicle.observe (.scan 1 check) rows
    let twice := (once.observe (.remove ⟨1, 0⟩) rows).observe (.scan 2 check) rows
    chronicle.Reached ∧ once.Holds 0 ∧ ¬twice.Holds 0 := by
  intro rows check chronicle once twice
  have reached : chronicle.Reached :=
    ((Chronicle.Reached.start _ _).observe (by decide)).observe (by decide)
  have reached' : (once.observe (.remove ⟨1, 0⟩) rows).Reached :=
    (reached.observe (by decide)).observe (by decide)
  obtain ⟨_, scans, dismissed⟩ := ages_counted reached
  obtain ⟨_, scans', _⟩ := ages_counted reached'
  obtain ⟨turn, _, culls⟩ := scans 1 check rows (by decide)
  obtain ⟨turn', _, culls'⟩ := scans' 2 check rows (by decide)
  let career : Career .row := ⟨0, ⟨0, 0⟩, none, []⟩
  let older := career.judge 1 .useless
  have useless (asked : Nat) (item : Row) : check asked ⟨0, 0⟩ item = .useless := rfl
  have member : career ∈ chronicle.careers := by decide
  have first : chronicle.Dismissals 0 1 once :=
    .scan .none member rfl (by decide) (by decide) culls fun item _ => useless _ item
  have stays : older ∈ (once.observe (.remove ⟨1, 0⟩) rows).careers := by decide
  have second : chronicle.Dismissals 0 2 twice :=
    .scan (.other first rfl ⟨older, stays, rfl⟩) stays rfl (by decide) (by decide) culls'
      fun item _ => useless _ item
  refine ⟨reached, ?_, ?_⟩
  · exact (dismissed career member 1 once first).2 (by decide)
  · exact fun holds => absurd ((dismissed career member 2 twice second).1 holds) (by decide)

end BranchCutPrice
