import BranchCutPrice.Proofs.Lifespans
import BranchCutPrice.Proofs.Orderly
import BranchCutPrice.Proofs.Surveys

/-!
When pools were scanned. Solutions are numbered as they are installed and a pool is scanned for
the last one, so no pool was scanned for a later one, and none of its entries was checked
against a solution that the pool had not come to.
-/

namespace BranchCutPrice

open BranchCutPrice.Action

variable {kind : Kind} {α : Type}

/-! ### Pools -/

/-- What was checked so far, when solutions up to the given one were installed. -/
structure Pool.Dated (pool : Pool kind α) (now : Nat) : Prop where
  consistent : pool.Consistent
  scanned : ∀ last, pool.processed = some last → last ≤ now
  checked : ∀ entry ∈ pool.entries, ∀ solution, entry.processed = some solution →
    ∃ last, pool.processed = some last ∧ solution ≤ last

namespace Pool

variable {pool : Pool kind α} {now then' : Nat}

theorem Dated.empty (key : Key α) (ageLimit now : Nat) :
    (Pool.empty key ageLimit : Pool kind α).Dated now where
  consistent := .empty key ageLimit
  scanned _ processed := nomatch processed
  checked _ member := absurd member (Array.not_mem_empty _)

theorem Dated.later (dated : pool.Dated now) (later : now ≤ then') : pool.Dated then' :=
  ⟨dated.consistent, fun last processed => (dated.scanned last processed).trans later,
    dated.checked⟩

theorem Dated.push (dated : pool.Dated now) (handle : Handle kind) (hash : UInt64) :
    (pool.push handle hash).Dated now where
  consistent := dated.consistent.push handle hash
  scanned := dated.scanned
  checked entry member solution processed := by
    obtain old | rfl := Array.mem_push.1 member
    · exact dated.checked entry old solution processed
    · cases processed

theorem Dated.detach (dated : pool.Dated now) {position : Nat} {removed : PoolEntry kind}
    (found : pool.entries[position]? = some removed) :
    (pool.detach position removed).Dated now := by
  refine ⟨dated.consistent.detach found, ?_, fun entry member solution processed => ?_⟩
  · rw [processed_detach]
    exact dated.scanned
  · obtain ⟨i, bound, rfl⟩ := Array.mem_iff_getElem.1 member
    have there := getElem?_detach found i
    rw [Array.getElem?_eq_getElem bound] at there
    rw [processed_detach]
    split at there
    · cases there
    · split at there
      · obtain ⟨moved, last, same⟩ := Option.map_eq_some_iff.1 there.symm
        rw [← same] at processed
        exact dated.checked moved (Array.mem_of_getElem? last) solution processed
      · exact dated.checked _ (Array.mem_of_getElem? there.symm) solution processed

theorem Dated.emptied (dated : pool.Dated now) :
    ({ pool with entries := #[], index := ∅, cursor := 0 } : Pool kind α).Dated now where
  consistent := .emptied pool
  scanned := dated.scanned
  checked _ member := absurd member (Array.not_mem_empty _)

/-- Until a pool is scanned for a solution its entries are all to be checked. -/
theorem Dated.unchecked (dated : pool.Dated now) (fresh : pool.processed ≠ some now)
    {entry : PoolEntry kind} (member : entry ∈ pool.entries) : entry.processed ≠ some now := by
  intro checked
  obtain ⟨last, processed, behind⟩ := dated.checked entry member now checked
  have same : last = now := Nat.le_antisymm (dated.scanned last processed) behind
  exact fresh (same ▸ processed)

end Pool

namespace Stock

variable {now : Nat} {s : Stock kind α} {owed : Multiset (Handle kind)}

/-- A longer pool. -/
private theorem dated_of_added {handle : Handle kind} {s' : Stock kind α}
    (added : s'.pool = s.pool ∨ ∃ hash, s'.pool = s.pool.push handle hash) :
    Keeping (fun s : Stock kind α => s.pool.Dated now) s s' := by
  intro dated
  obtain same | ⟨hash, pushed⟩ := added
  · exact same ▸ dated
  · exact pushed ▸ dated.push handle hash

theorem add_dated [Poolable α] (handle : Handle kind) :
    (add handle : Action (Stock kind α) Unit).Respects (Keeping fun s => s.pool.Dated now) :=
  fun _ => (add_pool handle).mono fun _ => dated_of_added

theorem addIfNew_dated [Poolable α] (handle : Handle kind) :
    (addIfNew handle : Action (Stock kind α) _).Respects (Keeping fun s => s.pool.Dated now) :=
  fun _ => (addIfNew_pool handle).mono fun _ => dated_of_added

theorem remove_dated [Poolable α] (handle : Handle kind) :
    (remove handle : Action (Stock kind α) Unit).Respects (Keeping fun s => s.pool.Dated now) := by
  intro s
  apply (remove_pool handle).mono
  intro s' removed dated
  obtain ⟨position, entry, _, there, pool⟩ | ⟨_, pool⟩ := removed
  · exact pool ▸ dated.detach there
  · exact pool ▸ dated

theorem clear_dated :
    (clear : Action (Stock kind α) Unit).Respects (Keeping fun s => s.pool.Dated now) := by
  intro s
  apply clear_pool.mono
  intro s' emptied dated
  have same : s'.pool.Dated now := by
    rw [emptied]
    exact dated.emptied
  exact same

/-- A scan of a balanced stock checks all entries, or none. -/
theorem scan_dated (balanced : s.Balanced owed) (dated : s.pool.Dated now)
    (check : Check kind α) :
    (scan now check).Reaches s fun s' => s'.pool.Dated now := by
  apply ((scan_surveys balanced dated.consistent now check).and
    (scan_consistent dated.consistent now check)).imp
  · intro _ s' done
    obtain ⟨surveys, consistent⟩ := done
    refine ⟨consistent, fun last processed => ?_, fun entry member solution processed => ?_⟩
    · rw [surveys.processed] at processed
      cases processed
      exact le_rfl
    · rw [surveys.checked entry member] at processed
      cases processed
      exact ⟨now, surveys.processed, le_rfl⟩
  · intro _ s' refused
    rw [refused.1.1]
    exact dated

end Stock

variable {owed : Holdings}

/-- The pool beside a relaxation was scanned for solutions that were installed. -/
def CutPool.Dated (s : Linked CutPool) : Prop :=
  s.own.pool.Dated s.lp.solutions

def ColumnPool.Dated (s : Linked ColumnPool) : Prop :=
  s.own.pool.Dated s.lp.solutions

namespace CutPool

theorem stock_dated {act : Action (Stock .row Row) α}
    (dated : ∀ now, act.Respects (Keeping fun s => s.pool.Dated now)) :
    (stockPart.run act).Respects (Keeping CutPool.Dated) :=
  fun s => ensures_run.2 (dated s.lp.solutions (stockPart.get s))

theorem add_dated (row : RowId) : (add row).Respects (Keeping CutPool.Dated) :=
  (stock_dated fun _ => Stock.addIfNew_dated row).bind fun _ =>
    (respects_emitIf _ _).bind fun _ => respects_pure _

variable {s : Linked CutPool}

theorem scan_dated (settled : Settled s owed) (dated : CutPool.Dated s) :
    scan.Reaches s CutPool.Dated := by
  have balanced : (stockPart.get s).Balanced (owed.rows + s.lp.loadedRows) :=
    rowStock_balanced (s := ⟨s.own.pool, s.lp⟩) settled
  unfold Reaches scan
  rw [ensures_bind, ensures_get]
  exact ensures_run.2 (Stock.scan_dated balanced dated _)

end CutPool

namespace ColumnPool

theorem stock_dated {act : Action (Stock .column Column) α}
    (dated : ∀ now, act.Respects (Keeping fun s => s.pool.Dated now)) :
    (stockPart.run act).Respects (Keeping ColumnPool.Dated) :=
  fun s => ensures_run.2 (dated s.lp.solutions (stockPart.get s))

variable {s : Linked ColumnPool}

theorem scan_dated (settled : Settled s owed) (dated : ColumnPool.Dated s) (mode : PricingMode) :
    (scan mode).Reaches s ColumnPool.Dated := by
  have balanced : (stockPart.get s).Balanced (owed.columns + s.lp.loadedColumns) :=
    columnStock_balanced (s := ⟨s.own.pool, s.lp⟩) settled
  unfold Reaches scan
  rw [ensures_bind, ensures_get]
  exact ensures_run.2 (Stock.scan_dated balanced dated _)

end ColumnPool

/-- Nothing but the scan matters to the pool. -/
theorem CutPool.separate_dated {s : Linked (CutPool × SeparationRound)} (settled : Settled s owed)
    (dated : s.own.1.pool.Dated s.lp.solutions) :
    separate.Reaches s fun s' => s'.own.1.pool.Dated s'.lp.solutions := by
  obtain ⟨_, left, _⟩ := onLeft_frames.enter settled
  have scanned : (onLeft CutPool.scan : Action (Linked (CutPool × SeparationRound)) _).Reaches s
      fun s' => s'.own.1.pool.Dated s'.lp.solutions := ensures_run.2 (scan_dated left dated)
  have handed (cut : RowId × Float) :
      (onRight (SeparationRound.add cut.1 (.ofFloat cut.2) false) :
        Action (Linked (CutPool × SeparationRound)) Unit).Respects
          (Keeping fun s => s.own.1.pool.Dated s.lp.solutions) :=
    (SeparationRound.add_rests cut.1 (.ofFloat cut.2) false).run
      fun _ _ same dated => dated.later same.solutions_le
  unfold Reaches separate
  rw [ensures_bind]
  apply scanned.imp
  · intro survey s' dated'
    have rest := (Respects.forM handed survey.useful).bind fun _ => respects_pure survey.finding
    exact rest.keeps dated'
  · intro _ _ kept
    exact kept

theorem ColumnPool.price_dated {s : Linked (ColumnPool × PricingRound)} (settled : Settled s owed)
    (dated : s.own.1.pool.Dated s.lp.solutions) (mode : PricingMode) :
    (price mode).Reaches s fun s' => s'.own.1.pool.Dated s'.lp.solutions := by
  obtain ⟨_, left, _⟩ := onLeft_frames.enter settled
  have scanned : (onLeft (ColumnPool.scan mode) :
      Action (Linked (ColumnPool × PricingRound)) _).Reaches s
        fun s' => s'.own.1.pool.Dated s'.lp.solutions := ensures_run.2 (scan_dated left dated mode)
  have handed (found : ColumnId × Float) :
      (onRight (PricingRound.add found.1 found.2 (mode = .farkas)) :
        Action (Linked (ColumnPool × PricingRound)) Unit).Respects
          (Keeping fun s => s.own.1.pool.Dated s.lp.solutions) :=
    (PricingRound.add_rests found.1 found.2 _).run
      fun _ _ same dated => dated.later same.solutions_le
  unfold Reaches price
  rw [ensures_bind]
  apply scanned.imp
  · intro survey s' dated'
    have rest := (Respects.forM handed survey.useful).bind fun _ => respects_pure survey.finding
    exact rest.keeps dated'
  · intro _ _ kept
    exact kept

/-! ### Sessions -/

/-- The pools of a session were scanned for solutions that were installed. -/
structure Session.Dated (s : Session) : Prop where
  cutPool : s.cutPool.pool.Dated s.lp.solutions
  columnPool : s.columnPool.pool.Dated s.lp.solutions

namespace Session

variable {s s' : Session}

theorem Dated.later (dated : s.Dated) (later : s.lp.solutions ≤ s'.lp.solutions)
    (cutPool : s'.cutPool = s.cutPool) (columnPool : s'.columnPool = s.columnPool) : s'.Dated := by
  constructor
  · rw [cutPool]
    exact dated.cutPool.later later
  · rw [columnPool]
    exact dated.columnPool.later later

theorem modify_dated {f : Session → Session}
    (apart : ∀ s, (f s).lp = s.lp ∧ (f s).cutPool = s.cutPool ∧ (f s).columnPool = s.columnPool) :
    (modify f : Action Session Unit).Respects (Keeping Session.Dated) :=
  respects_modify fun s dated =>
    dated.later (congrArg Relaxation.solutions (apart s).1).ge (apart s).2.1 (apart s).2.2

/-- An operation on a part beside the pools. -/
theorem linked_dated {τ : Type} {part : Part Session τ} {act : Action (Linked τ) α}
    (rests : act.Respects Linked.Rests)
    (pools : ∀ s t, (part.set s t).cutPool = s.cutPool ∧ (part.set s t).columnPool = s.columnPool) :
    ((linked part).run act).Respects (Keeping Session.Dated) :=
  rests.run fun s t same dated =>
    dated.later same.solutions_le (pools s t.own).1 (pools s t.own).2

theorem cutPool_dated {act : Action (Linked CutPool) α}
    (dates : act.Respects (Keeping CutPool.Dated)) (rests : act.Respects Linked.Rests) :
    ((linked cutPoolPart).run act).Respects (Keeping Session.Dated) :=
  (dates.and rests).run fun _ _ done dated =>
    ⟨done.1 dated.cutPool, dated.columnPool.later done.2.solutions_le⟩

theorem columnPool_dated {act : Action (Linked ColumnPool) α}
    (dates : act.Respects (Keeping ColumnPool.Dated)) (rests : act.Respects Linked.Rests) :
    ((linked columnPoolPart).run act).Respects (Keeping Session.Dated) :=
  (dates.and rests).run fun _ _ done dated =>
    ⟨dated.cutPool.later done.2.solutions_le, done.1 dated.columnPool⟩

theorem addCut_dated (row : RowId) (forced : Bool) :
    (addCut row forced).Respects (Keeping Session.Dated) := by
  have pooled : (pooledCut row).Respects (Keeping Session.Dated) := by
    unfold pooledCut
    apply (respects_read _).bind
    intro item
    split
    · exact respects_pure _
    · exact (cutPool_dated (CutPool.add_dated row) (CutPool.add_rests row)).bind
        fun _ => respects_pure _
  unfold addCut
  apply pooled.bind
  intro stored
  apply (respects_read _).bind
  intro item
  apply respects_get.bind
  intro s
  exact linked_dated (SeparationRound.add_rests _ _ _) fun _ _ => ⟨rfl, rfl⟩

theorem addPricedColumn_dated (column : ColumnId) (reducedCost : Float) (forced : Bool) :
    (addPricedColumn column reducedCost forced).Respects (Keeping Session.Dated) := by
  have added : ((linked columnPoolPart).run (ColumnPool.add column)).Respects
      (Keeping Session.Dated) :=
    columnPool_dated (ColumnPool.stock_dated fun _ => Stock.addIfNew_dated column)
      (ColumnPool.stock_rests _)
  have pooled : (pooledColumn column).Respects (Keeping Session.Dated) := by
    unfold pooledColumn
    apply (respects_read _).bind
    intro item
    split
    · exact respects_pure _
    · exact added.bind fun _ => respects_pure _
  unfold addPricedColumn
  apply pooled.bind
  intro stored
  exact linked_dated (PricingRound.add_rests _ _ _) fun _ _ => ⟨rfl, rfl⟩

theorem separationRound_dated (settled : Settled s owed) (dated : s.Dated) (id : NodeId) :
    (separationRound id).Reaches s Session.Dated := by
  obtain ⟨_, inside, _⟩ := separation_frames.enter settled
  have separated : ((linked (cutPoolPart.pair cutsPart)).run CutPool.separate).Reaches s
      Session.Dated := by
    apply ensures_run.2
    apply Reaches.mono ((CutPool.separate_dated inside dated.cutPool).and
      (CutPool.separate_rests _))
    intro _ done
    exact ⟨done.1, dated.columnPool.later done.2.solutions_le⟩
  have applied (limit : Nat) :
      ((linked (cutsPart.pair treePart)).run (SeparationRound.apply id limit)).Respects
        (Keeping Session.Dated) := by
    have altered : (SeparationRound.apply id limit).Respects
        (Function.onFun (Linked.Alters ∅ False False) SeparationRound.treeBeside) :=
      SeparationRound.apply_changes id limit
    exact altered.run fun _ _ done dated => dated.later done.lp.solutions_le rfl rfl
  unfold Reaches separationRound
  rw [ensures_bind]
  apply separated.imp
  · intro finding s' dated'
    rw [ensures_bind, ensures_get]
    split
    · exact dated'
    · refine Respects.keeps ?_ dated'
      apply (applied _).bind
      intro added
      refine (modify_dated ?_).bind fun _ => respects_pure _
      intro _
      exact ⟨rfl, rfl, rfl⟩
  · intro _ _ kept
    exact kept

theorem pricingRound_dated (settled : Settled s owed) (dated : s.Dated) (mode : PricingMode) :
    (pricingRound mode).Reaches s Session.Dated := by
  obtain ⟨_, inside, _⟩ := pricing_frames.enter settled
  have priced : ((linked (columnPoolPart.pair columnsPart)).run (ColumnPool.price mode)).Reaches s
      Session.Dated := by
    apply ensures_run.2
    apply Reaches.mono ((ColumnPool.price_dated inside dated.columnPool mode).and
      (ColumnPool.price_rests mode _))
    intro _ done
    exact ⟨dated.cutPool.later done.2.solutions_le, done.1⟩
  have selected (quota : Nat) :
      ((linked columnsPart).run (PricingRound.selectBest quota)).Respects
        (Keeping Session.Dated) :=
    linked_dated (PricingRound.selectBest_rests quota) fun _ _ => ⟨rfl, rfl⟩
  unfold Reaches pricingRound
  rw [ensures_bind]
  apply priced.imp
  · intro _ s' dated'
    rw [ensures_bind, ensures_get]
    refine Respects.keeps ?_ dated'
    apply (selected _).bind
    intro result
    refine (modify_dated ?_).bind fun _ => respects_pure _
    intro _
    exact ⟨rfl, rfl, rfl⟩
  · intro _ _ kept
    exact kept

theorem clear_dated : clear.Respects (Keeping Session.Dated) := by
  have cleared : (onTree Tree.clear).Respects (Keeping Session.Dated) := by
    have altered : Tree.clear.Respects (Linked.Alters {.fell} True False) :=
      Tree.clear_changes (Set.mem_singleton _) trivial
    exact altered.run fun _ _ done dated => dated.later done.lp.solutions_le rfl rfl
  have wiped : Relaxation.clear.Respects (Relaxation.Shifted False True) :=
    Relaxation.clear_shifts trivial
  have unloaded : (lpPart.run Relaxation.clear).Respects (Keeping Session.Dated) :=
    wiped.run fun _ _ shifted dated => dated.later shifted.solutions_le rfl rfl
  unfold clear
  apply (linked_dated SeparationRound.clear_rests fun _ _ => ⟨rfl, rfl⟩).bind
  intro _
  apply (linked_dated PricingRound.clear_rests fun _ _ => ⟨rfl, rfl⟩).bind
  intro _
  apply cleared.bind
  intro _
  apply (cutPool_dated (CutPool.stock_dated fun _ => Stock.clear_dated)
    (CutPool.stock_rests _)).bind
  intro _
  apply (columnPool_dated (ColumnPool.stock_dated fun _ => Stock.clear_dated)
    (ColumnPool.stock_rests _)).bind
  intro _
  exact unloaded

end Session

theorem SessionCall.perform_dated (call : SessionCall) {s : Session} (settled : Settled s owed)
    (dated : s.Dated) : call.perform.Reaches s Session.Dated := by
  -- a call that leaves the pools alone may install a solution
  have spared (idle : call.idle) : call.perform.Reaches s Session.Dated := by
    have altered : call.perform.Respects
        (Session.Alters call.edits True call.turns call.idle call.clears) :=
      call.perform_changes fun _ => trivial
    apply (altered s).mono
    intro _ done
    exact dated.later done.lp.solutions_le (done.pools idle).1 (done.pools idle).2
  cases call with
  | addCut row forced => exact (Session.addCut_dated row forced).keeps dated
  | separationRound id => exact discard_reaches.2 (Session.separationRound_dated settled dated id)
  | addPricedColumn column reducedCost forced =>
    exact (Session.addPricedColumn_dated column reducedCost forced).keeps dated
  | pricingRound mode => exact discard_reaches.2 (Session.pricingRound_dated settled dated mode)
  | clear => exact Session.clear_dated.keeps dated
  | _ => exact spared trivial

theorem CutPoolCall.perform_dated (call : CutPoolCall) {s : Linked CutPool}
    (settled : Settled s owed) (dated : CutPool.Dated s) :
    call.perform.Reaches s CutPool.Dated := by
  cases call with
  | add row => exact (CutPool.add_dated row).discard.keeps dated
  | addNew row => exact (CutPool.stock_dated fun _ => Stock.add_dated row).keeps dated
  | remove row => exact (CutPool.stock_dated fun _ => Stock.remove_dated row).keeps dated
  | scan => exact discard_reaches.2 (CutPool.scan_dated settled dated)
  | clear => exact (CutPool.stock_dated fun _ => Stock.clear_dated).keeps dated

/-! ### Worlds -/

variable {ι : Type} [DecidableEq ι] [Inhabited ι]

/-- The pools of a world that are scanned for the installed solution were never scanned for a
later one. -/
structure World.Dated (w : World ι) : Prop where
  cutPools : ∀ p, (w.cutPools p).pool.Dated w.lp.solutions
  columnPool : w.columnPool.pool.Dated w.lp.solutions

namespace World

variable {w w' : World ι}

omit [DecidableEq ι] in
theorem Dated.session (dated : w.Dated) : w.session.Dated :=
  ⟨dated.cutPools default, dated.columnPool⟩

omit [Inhabited ι] in
theorem Dated.update (dated : w.Dated) {p : ι} {cutPool : CutPool}
    (pools : w'.cutPools = Function.update w.cutPools p cutPool)
    (later : w.lp.solutions ≤ w'.lp.solutions) (here : cutPool.pool.Dated w'.lp.solutions)
    (columnPool : w'.columnPool.pool.Dated w'.lp.solutions) : w'.Dated := by
  refine ⟨fun q => ?_, columnPool⟩
  rw [pools]
  by_cases same : q = p
  · subst same
    rw [Function.update_self]
    exact here
  · rw [Function.update_of_ne same]
    exact (dated.cutPools q).later later

variable [Fintype ι]

omit [Inhabited ι] [DecidableEq ι] in
/-- An operation beside the pools. -/
theorem beside_dated {τ : Type} [Ledger τ] {part : Part (World ι) τ} {act : Action τ Unit}
    (frames : part.Frames)
    (pools : ∀ t, (part.set w t).cutPools = w.cutPools ∧ (part.set w t).columnPool = w.columnPool)
    (grows : act.Reaches (part.get w) fun t =>
      (Ledger.lp (part.get w)).solutions ≤ (Ledger.lp t).solutions) (dated : w.Dated) :
    (part.run act).Reaches w World.Dated := by
  apply ensures_run.2
  apply Reaches.mono grows
  intro t later
  have lpSet : (part.set w t).lp = Ledger.lp t := frames.lp_set w t
  have lpGet : Ledger.lp (part.get w) = w.lp := frames.lp_get w
  rw [lpGet] at later
  constructor
  · intro p
    rw [(pools t).1, lpSet]
    exact (dated.cutPools p).later later
  · rw [(pools t).2, lpSet]
    exact dated.columnPool.later later

end World

theorem Call.perform_dated [Fintype ι] (call : Call ι) {w : World ι} (kept : w.Kept owed)
    (dated : w.Dated) : call.perform.Reaches w World.Dated := by
  open World in
  cases call with
  | client call =>
    exact beside_dated clientPart_frames (fun _ => ⟨rfl, rfl⟩)
      ((call.perform_shifts _).mono fun _ shifted => shifted.solutions_le) dated
  | tree p call =>
    have altered : call.perform.Respects (Linked.Alters call.edits True call.turns) :=
      call.perform_changes fun _ => trivial
    exact beside_dated (treeAt_frames p) (fun _ => ⟨rfl, rfl⟩)
      ((altered _).mono fun _ done => done.lp.solutions_le) dated
  | rowPool p call =>
    exact beside_dated (rowPoolAt_frames p) (fun _ => ⟨rfl, rfl⟩)
      ((call.perform_rests _).mono fun _ same => same.solutions_le) dated
  | cutRound p call =>
    exact beside_dated (cutRoundAt_frames p) (fun _ => ⟨rfl, rfl⟩)
      ((call.perform_rests _).mono fun _ same => same.solutions_le) dated
  | applyCuts p r node limit =>
    have altered : (SeparationRound.apply node limit).Respects
        (Function.onFun (Linked.Alters ∅ False False) SeparationRound.treeBeside) :=
      SeparationRound.apply_changes node limit
    exact beside_dated (applying_frames p r) (fun _ => ⟨rfl, rfl⟩)
      ((altered.discard _).mono fun _ done => done.lp.solutions_le) dated
  | cutPool p call =>
    obtain ⟨_, inside, _⟩ := (cutPoolAt_frames p).enter kept.settled
    apply ensures_run.2
    apply Reaches.mono ((call.perform_dated inside (dated.cutPools p)).and (call.perform_rests _))
    intro t done
    exact dated.update rfl done.2.solutions_le done.1
      (dated.columnPool.later done.2.solutions_le)
  | separate p r =>
    obtain ⟨_, inside, _⟩ := (separating_frames p r).enter kept.settled
    apply ensures_run.2
    apply discard_reaches.2
    apply Reaches.mono ((CutPool.separate_dated inside (dated.cutPools p)).and
      (CutPool.separate_rests _))
    intro t done
    exact dated.update rfl done.2.solutions_le done.1
      (dated.columnPool.later done.2.solutions_le)
  | session call =>
    obtain ⟨_, inside, _⟩ := sessionPart_frames.enter kept.settled
    apply ensures_run.2
    have altered : call.perform.Respects
        (Session.Alters call.edits True call.turns call.idle call.clears) :=
      call.perform_changes fun _ => trivial
    apply Reaches.mono ((call.perform_dated inside dated.session).and (altered _))
    intro s done
    exact dated.update rfl done.2.lp.solutions_le done.1.cutPool done.1.columnPool

/-! ### Runs -/

variable [Fintype ι] {rule : Rule ι} {w w' : World ι}

theorem Step.dated {call : Call ι} (step : Step call w w') (kept : w.Kept owed)
    (dated : w.Dated) : w'.Dated := by
  have reached := reaches_iff.1 (call.perform_dated kept dated)
  rw [step.performed] at reached
  exact reached

omit [DecidableEq ι] [Fintype ι] in
theorem World.Fresh.dated (fresh : w.Fresh) : w.Dated := by
  constructor
  · intro p
    obtain ⟨settings, built⟩ := fresh.cutPools p
    obtain ⟨key, ageLimit, empty⟩ := CutPool.ofSettings_ok built
    rw [empty]
    exact .empty key ageLimit _
  · obtain ⟨settings, built⟩ := fresh.session
    obtain ⟨_, columnPool, _⟩ := Session.ofSettings_ok built
    obtain ⟨key, ageLimit, empty⟩ := ColumnPool.ofSettings_ok columnPool
    have same : w.columnPool.pool = .empty key ageLimit := empty
    rw [same]
    exact .empty key ageLimit _

theorem Reachable.dated (reached : Reachable rule w) : w.Dated := by
  obtain ⟨start, fresh, run⟩ := reached
  exact run.preserves fresh.kept (fun _ _ _ _ kept _ step => step.dated kept) fresh.dated

end BranchCutPrice
