import BranchCutPrice.Proofs.Client
import BranchCutPrice.Proofs.PoolIndex

/-!
Runs of a pool. A call keeps the pool consistent whether it is refused or not, a scan at
every step of its way, so that a pool is consistent after any number of calls.
-/

namespace BranchCutPrice

variable {kind : Kind} {α : Type}

namespace Pool.Consistent

variable {pool : Pool kind α}

theorem stats (consistent : pool.Consistent) (stats : PoolStats) :
    ({ pool with stats := stats } : Pool kind α).Consistent :=
  ⟨consistent.positions, consistent.trim, consistent.once, consistent.cursor,
    consistent.checked⟩

/-- Once all entries were checked against a solution the cursor may stand behind them. -/
theorem finish (consistent : pool.Consistent) (solution : Nat) (stats : PoolStats)
    (all : ∀ (i : Nat) (entry : PoolEntry kind), pool.entries[i]? = some entry →
      entry.processed = some solution) :
    ({ pool with processed := some solution, cursor := pool.entries.size, stats := stats } :
      Pool kind α).Consistent :=
  ⟨consistent.positions, consistent.trim, consistent.once, Nat.le_refl _,
    fun i entry _ found => all i entry found⟩

theorem emptied (pool : Pool kind α) :
    ({ pool with entries := #[], index := ∅, cursor := 0 } : Pool kind α).Consistent := by
  have fresh := @Consistent.empty kind α pool.key pool.ageLimit
  exact ⟨fresh.positions, fresh.trim, fresh.once, Nat.le_refl _,
    fun _ _ early => absurd early (Nat.not_lt_zero _)⟩

end Pool.Consistent

namespace Stock

open BranchCutPrice.Action Pool

variable {s : Stock kind α}

theorem removeAt_pool (position : Nat) :
    (removeAt position).Reaches s fun s' => s'.pool =
      match s.pool.entries[position]? with
      | none => s.pool
      | some entry => s.pool.detach position entry := by
  unfold Reaches removeAt
  rw [ensures_bind, ensures_get]
  cases s.pool.entries[position]? with
  | none => rfl
  | some entry =>
    rw [ensures_bind, ensures_modifyPool]
    apply ensures_change.2
    constructor
    · intro s' changed
      simp only [bind, Except.bind] at changed
      split at changed
      · cases changed
      · cases changed
        rfl
    · intro _ _
      rfl

theorem removeAt_consistent (consistent : s.pool.Consistent) (position : Nat) :
    (removeAt position).Reaches s fun s' => s'.pool.Consistent := by
  have kept (s' : Stock kind α) (reached : s'.pool =
      match s.pool.entries[position]? with
      | none => s.pool
      | some entry => s.pool.detach position entry) : s'.pool.Consistent := by
    cases found : s.pool.entries[position]? with
    | none => simpa only [reached, found] using consistent
    | some entry => simpa only [reached, found] using consistent.detach found
  exact (removeAt_pool position).mono kept

/-! ### Scanning -/

/-- On the way of a scan for a solution: all entries before a position were checked against
it, and the cursor is at rest unless it belongs to that solution. -/
structure Scanning (pool : Pool kind α) (solution position : Nat) : Prop where
  consistent : pool.Consistent
  aimed : pool.processed = some solution ∨ pool.cursor = 0
  swept : ∀ (i : Nat) (entry : PoolEntry kind), i < position →
    pool.entries[i]? = some entry → entry.processed = some solution

namespace Scanning

variable {pool : Pool kind α} {solution position : Nat}

theorem stats (scanning : Scanning pool solution position) (stats : PoolStats) :
    Scanning { pool with stats := stats } solution position :=
  ⟨scanning.consistent.stats stats, scanning.aimed, scanning.swept⟩

/-- Entries may change as long as they stay where they are and no check is forgotten. -/
theorem amend (scanning : Scanning pool solution position) {f : PoolEntry kind → PoolEntry kind}
    (i : Nat) (places : ∀ entry, (f entry).position = entry.position)
    (hashes : ∀ entry, (f entry).hash = entry.hash)
    (checks : ∀ entry, (f entry).processed = entry.processed ∨
      (f entry).processed = some solution) :
    Scanning (pool.amend i f) solution position := by
  refine ⟨scanning.consistent.amend places hashes fun early entry checked => ?_,
    scanning.aimed, fun j entry before found => ?_⟩
  · obtain same | done := checks entry
    · exact same.trans checked
    · obtain aimed | rest := scanning.aimed
      · exact done.trans aimed.symm
      · omega
  · rw [getElem?_amend] at found
    split at found
    · obtain ⟨old, there, rfl⟩ := Option.map_eq_some_iff.1 found
      obtain same | done := checks old
      · exact same.trans (scanning.swept j old before there)
      · exact done
    · exact scanning.swept j entry before found

/-- The entry at the position was checked as well. -/
theorem advance (scanning : Scanning pool solution position)
    (here : ∀ entry, pool.entries[position]? = some entry → entry.processed = some solution) :
    Scanning pool solution (position + 1) := by
  refine ⟨scanning.consistent, scanning.aimed, fun i entry before found => ?_⟩
  obtain earlier | same := Nat.lt_succ_iff_lt_or_eq.1 before
  · exact scanning.swept i entry earlier found
  · exact here entry (same ▸ found)

theorem detach (scanning : Scanning pool solution position) {removed : PoolEntry kind}
    (found : pool.entries[position]? = some removed) :
    Scanning (pool.detach position removed) solution position := by
  refine ⟨scanning.consistent.detach found, ?_, fun i entry before there => ?_⟩
  · rw [processed_detach]
    have cursor := cursor_detach_le pool position removed
    exact scanning.aimed.imp id fun rest => by omega
  · rw [getElem?_detach found] at there
    split at there
    · cases there
    · rw [if_neg (by omega)] at there
      exact scanning.swept i entry before there

end Scanning

variable {solution position : Nat}

@[simp]
theorem ensures_modifyEntry {f : PoolEntry kind → PoolEntry kind}
    {done : Unit → Stock kind α → Prop} {refused : Error → Stock kind α → Prop} :
    (modifyEntry position f).Ensures s done refused ↔
      done () ⟨s.pool.amend position f, s.registry⟩ :=
  Iff.rfl

@[simp]
theorem ensures_modifyStats {f : PoolStats → PoolStats} {done : Unit → Stock kind α → Prop}
    {refused : Error → Stock kind α → Prop} :
    (modifyStats f).Ensures s done refused ↔
      done () ⟨{ s.pool with stats := f s.pool.stats }, s.registry⟩ :=
  Iff.rfl

/-! ### Examinations -/

/-- The entry at a position is noted as checked, and the check is counted. -/
def marked (s : Stock kind α) (solution position : Nat) : Stock kind α :=
  ⟨{ s.pool.amend position (fun entry => { entry with processed := some solution }) with
    stats := { s.pool.stats with checks := s.pool.stats.checks + 1 } }, s.registry⟩

/-- The entry at a position gets an age. -/
def aged (s : Stock kind α) (position age : Nat) : Stock kind α :=
  ⟨s.pool.amend position fun entry => { entry with age := age }, s.registry⟩

section Entry

variable {entry : PoolEntry kind} (found : s.pool.entries[position]? = some entry)
include found

theorem entry_marked (solution : Nat) : (s.marked solution position).pool.entries[position]? =
    some { entry with processed := some solution } :=
  getElem?_amend_self found _

theorem entry_aged (age : Nat) :
    (s.aged position age).pool.entries[position]? = some { entry with age := age } :=
  getElem?_amend_self found _

end Entry

theorem Balanced.marked {owed : Multiset (Handle kind)} (balanced : s.Balanced owed)
    (solution position : Nat) : (s.marked solution position).Balanced owed :=
  balanced.pool (Pool.handles_modify s.pool _ fun _ => rfl)

theorem Balanced.aged {owed : Multiset (Handle kind)} (balanced : s.Balanced owed)
    (position age : Nat) : (s.aged position age).Balanced owed :=
  balanced.pool (Pool.handles_modify s.pool _ fun _ => rfl)

/-- An entry that was found useless stays, unless that was once too often. -/
theorem ensures_grow {entry : PoolEntry kind} {done : Nat → Stock kind α → Prop}
    {refused : Error → Stock kind α → Prop}
    (stays : entry.age + 1 ≤ s.pool.ageLimit →
      done (position + 1) (s.aged position (entry.age + 1)))
    (leaves : s.pool.ageLimit < entry.age + 1 →
      (removeAt position).Ensures (s.aged position (entry.age + 1))
        (fun _ s' => done position ⟨{ s'.pool with
          stats := { s'.pool.stats with evicted := s'.pool.stats.evicted + 1 } }, s'.registry⟩)
        refused) : (grow position entry).Ensures s done refused := by
  unfold grow
  rw [ensures_bind, ensures_modifyEntry, ensures_bind, ensures_get]
  split
  · rename_i beyond
    rw [ensures_bind, ensures_emit, ensures_bind]
    exact leaves beyond
  · rename_i young
    exact stays (not_lt.1 young)

/-- What becomes of an entry, unless it was checked already, is up to the verdict on its object. -/
theorem ensures_examine {entry : PoolEntry kind}
    (found : s.pool.entries[position]? = some entry) {check : Handle kind → α → Verdict}
    {done : Option (Handle kind × Verdict) × Nat → Stock kind α → Prop}
    {refused : Error → Stock kind α → Prop}
    (skip : entry.processed = some solution → done (none, position + 1) s)
    (gone : entry.processed ≠ some solution → ∀ e, s.registry.get entry.handle = .error e →
      refused e (s.marked solution position))
    (judge : entry.processed ≠ some solution → ∀ item, s.registry.get entry.handle = .ok item →
      match check entry.handle item with
      | .loaded => done (some (entry.handle, .loaded), position + 1) (s.marked solution position)
      | .useful score => done (some (entry.handle, .useful score), position + 1)
          ((s.marked solution position).aged position 0)
      | .useless => (grow position entry).Ensures (s.marked solution position)
          (fun next => done (some (entry.handle, .useless), next)) refused) :
    (examine solution check position).Ensures s done refused := by
  unfold examine
  rw [ensures_bind, ensures_get, found]
  dsimp only
  split
  · exact skip ‹_›
  · rename_i fresh
    rw [ensures_bind, ensures_modifyEntry, ensures_bind, ensures_modifyStats, ensures_bind]
    apply ensures_read.2
    refine ⟨fun item got => ?_, fun e stale => gone fresh e stale⟩
    have judged := judge fresh item got
    dsimp only
    cases verdict : check entry.handle item with
    | loaded =>
      rw [verdict] at judged
      exact judged
    | useful score =>
      rw [verdict] at judged
      dsimp only
      rw [ensures_bind, ensures_modifyEntry, ensures_pure]
      exact judged
    | useless =>
      rw [verdict] at judged
      dsimp only
      rw [ensures_bind]
      exact judged

theorem requireRecent_ensures (s : Stock kind α) (solution : Nat) :
    (requireRecent solution).Ensures s
      (fun _ s' => s' = s ∧ ∀ last, s.pool.processed = some last → last ≤ solution)
      (fun _ s' => s' = s ∧ ∃ last, s.pool.processed = some last ∧ solution < last) := by
  unfold requireRecent
  apply ensures_read.2
  cases s.pool.processed with
  | none => exact ⟨fun _ _ => ⟨rfl, fun _ none => nomatch none⟩, fun _ refused => nomatch refused⟩
  | some processed =>
    dsimp only
    split
    · rename_i older
      exact ⟨fun _ accepted => (nomatch accepted), fun _ _ => ⟨rfl, processed, rfl, older⟩⟩
    · rename_i recent
      refine ⟨fun _ _ => ⟨rfl, fun last same => ?_⟩, fun _ refused => nomatch refused⟩
      cases same
      exact Nat.not_lt.1 recent

/-- The stock when a scan for a solution has found where to start. -/
def aimed (solution : Nat) (s : Stock kind α) : Stock kind α :=
  ⟨{ s.pool with
    cursor := if s.pool.processed = some solution then s.pool.cursor else 0 }, s.registry⟩

/-- The stock with one more call of a scan counted. -/
def counted (s : Stock kind α) : Stock kind α :=
  ⟨{ s.pool with stats := { s.pool.stats with calls := s.pool.stats.calls + 1 } }, s.registry⟩

/-- A survey is counted and is a run of examinations, after which all entries are checked. -/
theorem ensures_survey {check : Check kind α}
    {done : Survey kind → Stock kind α → Prop} {refused : Error → Stock kind α → Prop} :
    (survey solution check).Ensures s done refused ↔
      (examineFrom solution check (s.pool.entries.size - s.pool.cursor) 0 s.pool.cursor).Ensures
        s.counted
        (fun verdicts s' => done
          ⟨if (usefulScores verdicts).isEmpty then .nothing else .found, verdicts⟩
          ⟨{ s'.pool with
            processed := some solution
            cursor := s'.pool.entries.size
            stats := { s'.pool.stats with
              found := s'.pool.stats.found + (usefulScores verdicts).length } }, s'.registry⟩)
        refused := by
  unfold survey
  rw [ensures_bind, ensures_modifyStats, ensures_bind, ensures_get, ensures_bind, ensures_emit,
    ensures_bind]
  rfl

/-- A scan for an older solution is refused. Any other one has nothing to do if the cursor stands
behind the entries, and is a survey from the cursor on if it does not. -/
theorem ensures_scan {check : Check kind α}
    {done : Survey kind → Stock kind α → Prop} {refused : Error → Stock kind α → Prop}
    (older : ∀ e last, s.pool.processed = some last → solution < last → refused e s)
    (idle : (∀ last, s.pool.processed = some last → last ≤ solution) →
      s.pool.entries.size ≤ (s.aimed solution).pool.cursor →
        done ⟨.notRun, []⟩
          ⟨{ (s.aimed solution).pool with processed := some solution }, s.registry⟩)
    (busy : (∀ last, s.pool.processed = some last → last ≤ solution) →
      (s.aimed solution).pool.cursor < s.pool.entries.size →
        (survey solution check).Ensures (s.aimed solution) done refused) :
    (scan solution check).Ensures s done refused := by
  unfold scan
  rw [ensures_bind]
  apply (requireRecent_ensures s solution).imp
  · rintro _ s' ⟨same, recent⟩
    rw [same, ensures_bind, ensures_modifyPool, ensures_bind, ensures_get]
    change Ensures (if s.pool.entries.size ≤ (s.aimed solution).pool.cursor then _ else _) _ _ _
    by_cases passed : s.pool.entries.size ≤ (s.aimed solution).pool.cursor
    · rw [if_pos passed, ensures_bind, ensures_modifyPool, ensures_pure]
      exact idle recent passed
    · rw [if_neg passed]
      exact busy recent (Nat.lt_of_not_le passed)
  · rintro e s' ⟨same, last, processed, late⟩
    rw [same]
    exact older e last processed late

theorem grow_scanning (scanning : Scanning s.pool solution position) (entry : PoolEntry kind)
    {current : PoolEntry kind} (found : s.pool.entries[position]? = some current)
    (checked : current.processed = some solution) :
    (grow position entry).Ensures s
      (fun next s' => Scanning s'.pool solution next ∧
        s'.pool.entries.size + position + 1 = s.pool.entries.size + next)
      (fun _ s' => s'.pool.Consistent) := by
  have bound := (Array.getElem?_eq_some_iff.1 found).1
  have here := entry_aged found (entry.age + 1)
  have size : (s.aged position (entry.age + 1)).pool.entries.size = s.pool.entries.size :=
    size_amend _ _ _
  have scanning' : Scanning (s.aged position (entry.age + 1)).pool solution position :=
    scanning.amend position (fun _ => rfl) (fun _ => rfl) fun _ => .inl rfl
  apply ensures_grow
  · intro _
    refine ⟨scanning'.advance fun old there => ?_, ?_⟩
    · cases here.symm.trans there
      exact checked
    · rw [size, Nat.add_assoc]
  · intro _
    have removed := removeAt_pool (s := s.aged position (entry.age + 1)) position
    rw [here] at removed
    apply (removed.and (removeAt_consistent scanning'.consistent position)).imp
    · intro _ s' reached
      obtain ⟨pool, _⟩ := reached
      rw [pool]
      refine ⟨(scanning'.detach here).stats _, ?_⟩
      change ((s.aged position (entry.age + 1)).pool.detach _ _).entries.size + _ + 1 = _
      rw [size_detach, size]
      omega
    · intro _ _ reached
      exact reached.2

theorem examine_scanning (scanning : Scanning s.pool solution position)
    (check : Handle kind → α → Verdict) (bound : position < s.pool.entries.size) :
    (examine solution check position).Ensures s
      (fun found s' => Scanning s'.pool solution found.2 ∧
        s'.pool.entries.size + position + 1 = s.pool.entries.size + found.2)
      (fun _ s' => s'.pool.Consistent) := by
  obtain ⟨entry, found⟩ : ∃ entry, s.pool.entries[position]? = some entry :=
    ⟨_, Array.getElem?_eq_getElem bound⟩
  have here := entry_marked found solution
  have size : (s.marked solution position).pool.entries.size = s.pool.entries.size :=
    size_amend _ _ _
  let mark (old : PoolEntry kind) : PoolEntry kind := { old with processed := some solution }
  have amended : Scanning (s.pool.amend position mark) solution position :=
    scanning.amend position (fun _ => rfl) (fun _ => rfl) fun _ => .inr rfl
  have scanning' : Scanning (s.marked solution position).pool solution position :=
    amended.stats _
  apply ensures_examine found
  · intro checked
    refine ⟨scanning.advance fun old there => ?_, Nat.add_assoc _ _ _⟩
    cases found.symm.trans there
    exact checked
  · intro _ _ _
    exact scanning'.consistent
  · intro _ item _
    cases check entry.handle item with
    | loaded =>
      refine ⟨scanning'.advance fun old there => ?_, ?_⟩
      · cases here.symm.trans there
        rfl
      · rw [size, Nat.add_assoc]
    | useful score =>
      have renewed : Scanning ((s.marked solution position).aged position 0).pool solution
          position :=
        scanning'.amend position (fun _ => rfl) (fun _ => rfl) fun _ => .inl rfl
      refine ⟨renewed.advance fun old there => ?_, ?_⟩
      · cases (entry_aged here 0).symm.trans there
        rfl
      · change ((s.marked solution position).pool.amend position _).entries.size + _ + 1 = _
        rw [size_amend, size, Nat.add_assoc]
    | useless =>
      have grown := grow_scanning scanning' entry here rfl
      rw [size] at grown
      exact grown

theorem examineFrom_scanning (check : Check kind α) (remaining asked : Nat)
    (scanning : Scanning s.pool solution position)
    (rest : position + remaining = s.pool.entries.size) :
    (examineFrom solution check remaining asked position).Ensures s
      (fun _ s' => Scanning s'.pool solution s'.pool.entries.size)
      (fun _ s' => s'.pool.Consistent) := by
  induction remaining generalizing s asked position with
  | zero =>
    rw [Nat.add_zero] at rest
    exact rest ▸ scanning
  | succ remaining ih =>
    unfold examineFrom
    rw [ensures_bind]
    apply (examine_scanning scanning (check asked) (by omega)).imp
    · intro found s' done
      obtain ⟨further, count⟩ := done
      rw [ensures_bind]
      exact (ih _ further (by omega)).imp (fun _ _ done => done) fun _ _ kept => kept
    · intro _ _ kept
      exact kept

/-- A scan begins with all entries before the cursor checked. -/
theorem scanning_of_consistent (consistent : s.pool.Consistent) (solution : Nat) :
    Scanning (s.aimed solution).pool solution (s.aimed solution).pool.cursor := by
  unfold aimed
  by_cases again : s.pool.processed = some solution
  · rw [if_pos again]
    exact ⟨consistent, .inl again, fun i entry early found =>
      (consistent.checked i entry early found).trans again⟩
  · rw [if_neg again]
    refine ⟨⟨consistent.positions, consistent.trim, consistent.once, Nat.zero_le _, ?_⟩,
      .inr rfl, ?_⟩
    · exact fun _ _ early => absurd early (Nat.not_lt_zero _)
    · exact fun _ _ early => absurd early (Nat.not_lt_zero _)

/-- If a scan has nothing to do, every entry was checked before. -/
theorem checked_of_idle (consistent : s.pool.Consistent)
    (idle : s.pool.entries.size ≤ (s.aimed solution).pool.cursor) {entry : PoolEntry kind}
    (member : entry ∈ s.pool.entries) : entry.processed = some solution := by
  obtain ⟨i, bound, rfl⟩ := Array.mem_iff_getElem.1 member
  exact (scanning_of_consistent consistent solution).swept i _ (Nat.lt_of_lt_of_le bound idle)
    (Array.getElem?_eq_getElem bound)

/-- Nothing is unchecked once the way of a scan ends. -/
theorem Scanning.checked {pool : Pool kind α} {solution : Nat}
    (swept : Scanning pool solution pool.entries.size) {entry : PoolEntry kind}
    (member : entry ∈ pool.entries) : entry.processed = some solution := by
  obtain ⟨i, bound, rfl⟩ := Array.mem_iff_getElem.1 member
  exact swept.swept i _ bound (Array.getElem?_eq_getElem bound)

theorem survey_consistent (scanning : Scanning s.pool solution s.pool.cursor)
    (check : Check kind α) :
    (survey solution check).Reaches s fun s' => s'.pool.Consistent := by
  have counted : Scanning s.counted.pool solution s.pool.cursor := scanning.stats _
  apply ensures_survey.2
  apply (examineFrom_scanning check _ 0 counted
    (Nat.add_sub_cancel' scanning.consistent.cursor)).imp
  · intro verdicts s' swept
    apply swept.consistent.finish
    intro i entry found
    exact swept.checked (Array.mem_of_getElem? found)
  · intro _ _ kept
    exact kept

theorem scan_consistent (consistent : s.pool.Consistent) (solution : Nat)
    (check : Check kind α) :
    (scan solution check).Reaches s fun s' => s'.pool.Consistent := by
  have scanning := scanning_of_consistent consistent solution
  apply ensures_scan
  · intro _ _ _ _
    exact consistent
  · intro _ idle
    refine ⟨consistent.positions, consistent.trim, consistent.once,
      scanning.consistent.cursor, fun i entry _ found => ?_⟩
    exact checked_of_idle consistent idle (Array.mem_of_getElem? found)
  · intro _ _
    exact survey_consistent scanning check

/-! ### Other calls -/

theorem reserve_pool (additional : Nat) :
    (reserve additional).Reaches s fun s' => s'.pool = s.pool := by
  apply ensures_change.2
  constructor
  · intro s' changed
    unfold Pool.reserve at changed
    split at changed
    · cases changed
      rfl
    · cases changed
  · intro _ _
    rfl

theorem Adds.pool [Poolable α] {s' : Stock kind α} {handle : Handle kind}
    (adds : Adds handle s s') : ∃ hash, s'.pool = s.pool.push handle hash := by
  obtain ⟨_, _, _, _, _, rfl⟩ := adds
  exact ⟨_, rfl⟩

/-- An addition appends an entry or changes nothing. -/
theorem add_pool [Poolable α] (handle : Handle kind) : (add handle).Reaches s fun s' =>
    s'.pool = s.pool ∨ ∃ hash, s'.pool = s.pool.push handle hash :=
  add_leads (.inl rfl) fun _ adds => .inr adds.pool

theorem addIfNew_pool [Poolable α] (handle : Handle kind) :
    (addIfNew handle).Reaches s fun s' =>
      s'.pool = s.pool ∨ ∃ hash, s'.pool = s.pool.push handle hash :=
  addIfNew_leads (.inl rfl) fun _ _ adds => .inr adds.pool

/-- A longer pool is as consistent as before. -/
private theorem consistent_of_added (consistent : s.pool.Consistent) {handle : Handle kind}
    {pool : Pool kind α} (added : pool = s.pool ∨ ∃ hash, pool = s.pool.push handle hash) :
    pool.Consistent := by
  obtain rfl | ⟨hash, rfl⟩ := added
  · exact consistent
  · exact consistent.push handle hash

theorem add_consistent [Poolable α] (consistent : s.pool.Consistent) (handle : Handle kind) :
    (add handle).Reaches s fun s' => s'.pool.Consistent :=
  (add_pool handle).mono fun _ => consistent_of_added consistent

theorem addIfNew_consistent [Poolable α] (consistent : s.pool.Consistent)
    (handle : Handle kind) : (addIfNew handle).Reaches s fun s' => s'.pool.Consistent :=
  (addIfNew_pool handle).mono fun _ => consistent_of_added consistent

theorem remove_consistent [Poolable α] (consistent : s.pool.Consistent)
    (handle : Handle kind) : (remove handle).Reaches s fun s' => s'.pool.Consistent :=
  remove_leads consistent (removeAt_consistent consistent) handle

/-- What becomes of the objects does not matter to the pool. -/
theorem clear_pool : (clear : Action (Stock kind α) Unit).Reaches s fun s' =>
    s'.pool = { s.pool with entries := #[], index := ∅, cursor := 0 } := by
  unfold Reaches clear
  rw [ensures_bind, ensures_get, ensures_bind, ensures_modifyPool]
  let before (_ : List (PoolEntry kind)) (s' : Stock kind α) : Prop :=
    s'.pool = { s.pool with entries := #[], index := ∅, cursor := 0 }
  apply ensures_forM before
  · intro entry rest s' emptied
    apply ensures_change.2
    constructor
    · intro s'' changed
      simp only [bind, Except.bind] at changed
      split at changed
      · cases changed
      · cases changed
        exact emptied
    · intro _ _
      exact emptied
  · rfl

theorem clear_consistent : (clear : Action (Stock kind α) Unit).Reaches s fun s' =>
    s'.pool.Consistent := by
  have kept (s' : Stock kind α)
      (emptied : s'.pool = { s.pool with entries := #[], index := ∅, cursor := 0 }) :
      s'.pool.Consistent := emptied ▸ Consistent.emptied s.pool
  exact clear_pool.mono kept

end Stock

/-! ### Runs -/

/-- What can be called on a pool. -/
inductive StockCall (kind : Kind) (α : Type) where
  | reserve (additional : Nat)
  | add (handle : Handle kind)
  | addIfNew (handle : Handle kind)
  | remove (handle : Handle kind)
  | scan (solution : Nat) (check : Check kind α)
  | clear

namespace StockCall

open BranchCutPrice.Action

variable [Poolable α]

def perform : StockCall kind α → Action (Stock kind α) Unit
  | reserve additional => Stock.reserve additional
  | add handle => Stock.add handle
  | addIfNew handle => discard (Stock.addIfNew handle)
  | remove handle => Stock.remove handle
  | scan solution check => discard (Stock.scan solution check)
  | clear => Stock.clear

theorem perform_consistent (call : StockCall kind α) {s : Stock kind α}
    (consistent : s.pool.Consistent) : call.perform.Reaches s fun s' => s'.pool.Consistent := by
  cases call with
  | reserve additional =>
    have kept (s' : Stock kind α) (same : s'.pool = s.pool) : s'.pool.Consistent :=
      same ▸ consistent
    exact (Stock.reserve_pool additional).mono kept
  | add handle => exact Stock.add_consistent consistent handle
  | addIfNew handle => exact discard_reaches.2 (Stock.addIfNew_consistent consistent handle)
  | remove handle => exact Stock.remove_consistent consistent handle
  | scan solution check =>
    exact discard_reaches.2 (Stock.scan_consistent consistent solution check)
  | clear => exact Stock.clear_consistent

theorem perform_balanced (call : StockCall kind α) {s : Stock kind α}
    {owed : Multiset (Handle kind)} (balanced : s.Balanced owed) :
    call.perform.Reaches s fun s' => s'.Balanced owed := by
  cases call with
  | reserve additional => exact Stock.reserve_reaches balanced additional
  | add handle => exact Stock.add_reaches balanced handle
  | addIfNew handle => exact discard_reaches.2 (Stock.addIfNew_reaches balanced handle)
  | remove handle => exact Stock.remove_reaches balanced handle
  | scan solution check => exact discard_reaches.2 (Stock.scan_reaches balanced solution check)
  | clear =>
    exact Completes.reaches (Stock.clear_reaches balanced) fun _ _ done => done.1

end StockCall

namespace Pool

variable [Poolable α]

/-- A call on a pool, successful or refused, whatever the registry holds at the time. -/
def Called (pool pool' : Pool kind α) : Prop :=
  ∃ (call : StockCall kind α) (registry : Registry kind α),
    (call.perform ⟨pool, registry⟩).state.pool = pool'

/-- Any number of calls on a pool that was empty at first. -/
def Reached (pool : Pool kind α) : Prop :=
  ∃ (key : Key α) (ageLimit : Nat), Relation.ReflTransGen Called (empty key ageLimit) pool

theorem Reached.consistent {pool : Pool kind α} (reached : pool.Reached) :
    pool.Consistent := by
  obtain ⟨key, ageLimit, calls⟩ := reached
  induction calls with
  | refl => exact .empty key ageLimit
  | @tail pool pool' _ called kept =>
    obtain ⟨call, registry, rfl⟩ := called
    have stock : (Stock.mk pool registry).pool.Consistent := kept
    exact Action.reaches_iff.1 (call.perform_consistent stock)

/-- The pool after some calls, each with the registry of its time. -/
def after (pool : Pool kind α) (calls : List (StockCall kind α × Registry kind α)) :
    Pool kind α :=
  calls.foldl (fun pool call => (call.1.perform ⟨pool, call.2⟩).state.pool) pool

theorem after_reached (key : Key α) (ageLimit : Nat)
    (calls : List (StockCall kind α × Registry kind α)) :
    ((empty key ageLimit).after calls).Reached := by
  have run (pool : Pool kind α) (calls : List (StockCall kind α × Registry kind α)) :
      Relation.ReflTransGen Called pool (pool.after calls) := by
    induction calls generalizing pool with
    | nil => exact .refl
    | cons call rest ih => exact .head ⟨call.1, call.2, rfl⟩ (ih _)
  exact ⟨key, ageLimit, run _ calls⟩

end Pool

/-- A pool is consistent at any time, so a search for an object never looks beyond the
entries. -/
theorem pool_consistent [Poolable α] {pool : Pool kind α} (reached : pool.Reached) :
    pool.Consistent ∧ ∀ (registry : Registry kind α) (handle : Handle kind) (item : α),
      registry.get handle = .ok item →
        ∀ position ∈ pool.index[pool.key.hash item]?.getD [], position < pool.entries.size := by
  refine ⟨reached.consistent, fun registry handle item _ position member => ?_⟩
  obtain ⟨entry, found, _⟩ := reached.consistent.mem_filed.1 member
  exact (Array.getElem?_eq_some_iff.1 found).1

/-- Two rows under one hash, of which the first is stored twice. A scan evicts it once, which
frees it, and is refused at the second entry. -/
theorem pool_consistent_evicted :
    let rows := ((Registry.empty.insert ⟨"a", ⟨1, []⟩, 0, 1, false⟩).2.insert
      (⟨"b", ⟨1, []⟩, 0, 2, false⟩ : Row)).2
    let fresh : Pool .row Row := .empty ⟨fun _ => 0, fun _ _ => false⟩ 0
    let pool := fresh.after
      [(.add ⟨0, 0⟩, rows), (.add ⟨0, 0⟩, rows), (.addIfNew ⟨1, 0⟩, rows),
        (.scan 1 fun _ row _ => if row.slot = 0 then .useless else .loaded, rows)]
    pool.entries.toList.map PoolEntry.handle = [⟨1, 0⟩, ⟨0, 0⟩] ∧ pool.Consistent := by
  intro rows fresh pool
  have reached : pool.Reached := Pool.after_reached _ _ _
  exact ⟨by decide, (pool_consistent reached).1⟩

end BranchCutPrice
