import BranchCutPrice.Proofs.Dating
import BranchCutPrice.Proofs.Dedup
import BranchCutPrice.Proofs.Inspections

/-!
Handing objects over. A live object can be pooled, unless it may still change, and stored in a
round; what a scan finds useful stays in the pool, so that it can be handed to a round. Nothing of
this is refused.
-/

namespace BranchCutPrice

open BranchCutPrice.Action

variable {kind : Kind} {α : Type}

/-! ### Pools -/

namespace Stock

variable {s s' : Stock kind α} {owed : Multiset (Handle kind)} {handle : Handle kind}

theorem Balanced.live (balanced : s.Balanced owed) (stored : handle ∈ s.pool.handles) :
    s.registry.contains handle = true :=
  Registry.Balanced.live balanced (Multiset.mem_add.2 (.inr stored))

theorem Balanced.covered (balanced : s.Balanced owed) : s.Covered := by
  intro handle
  rw [balanced.count handle, Multiset.count_add]
  exact Nat.le_add_left _ _

/-- The object is pooled then, or an equal one is. -/
theorem addIfNew_completes [Poolable α] (balanced : s.Balanced owed) {item : α}
    (got : s.registry.get handle = .ok item) (fixed : Poolable.modifiable item = false) :
    (addIfNew handle).Completes s fun stored s' => stored.1 ∈ s'.pool.handles := by
  unfold Completes Ensures
  obtain ⟨i, entry, there, _, found⟩ | ⟨missing, _⟩ :=
    find_registered (fun _ => balanced.live) got
  · rw [addIfNew_found there found]
    exact handle_mem there
  · obtain ⟨registry, captured⟩ := Registry.capture_of_get got
    rw [addIfNew_missing got fixed captured missing]
    change handle ∈ (s.pool.push handle _).handles
    rw [Pool.handles_push]
    exact Multiset.mem_cons_self _ _

/-- A useful entry is not evicted. -/
theorem Inspected.useful_stays {verdict : Handle kind → Verdict} {solution : Nat}
    {survey : Survey kind} (inspected : Inspected verdict solution s survey s') :
    ∀ found ∈ survey.useful, found.1 ∈ s'.pool.handles := by
  intro found member
  rw [← Multiset.mem_coe, inspected.useful, Multiset.mem_filterMap] at member
  obtain ⟨entry, open', handed⟩ := member
  have stored := Multiset.mem_of_mem_filter open'
  have spared : ¬entry.Doomed verdict solution s.pool.ageLimit := by
    intro doomed
    rw [doomed.2.1] at handed
    cases handed
  have same : entry.handle = found.1 := by
    cases judged : verdict entry.handle with
    | useful score =>
      rw [judged] at handed
      cases handed
      rfl
    | loaded | useless =>
      rw [judged] at handed
      cases handed
  rw [Pool.handles_records, inspected.kept, survivors, Multiset.map_map, Multiset.mem_map]
  exact ⟨entry, Multiset.mem_filter.2 ⟨stored, spared⟩, PoolEntry.handle_scanned.trans same⟩

theorem scan_completes {now : Nat} (balanced : s.Balanced owed) (dated : s.pool.Dated now)
    (check : Handle kind → α → Verdict) : (scan now fun _ => check).Completes s fun survey s' =>
      ∀ found ∈ survey.useful, found.1 ∈ s'.pool.handles := by
  have covered := balanced.covered
  apply (scan_inspected covered (covered.heeds check) dated.consistent).imp
  · intro _ _ done
    exact done.2.useful_stays
  · intro _ _ refused
    obtain ⟨_, last, scanned, older⟩ := refused
    exact absurd (dated.scanned last scanned) (Nat.not_le.2 older)

end Stock

variable {owed : Holdings}

namespace CutPool

variable {s : Linked CutPool}

theorem stock_balanced (settled : Settled s owed) :
    (stockPart.get s).Balanced (owed.rows + s.lp.loadedRows) :=
  rowStock_balanced (s := ⟨s.own.pool, s.lp⟩) settled

theorem live (settled : Settled s owed) {row : RowId} (stored : row ∈ s.own.pool.handles) :
    s.lp.rows.contains row = true :=
  (stock_balanced settled).live stored

theorem add_completes (settled : Settled s owed) {row : RowId} {item : Row}
    (got : s.lp.rows.get row = .ok item) (fixed : item.modifiable = false) :
    (add row).Completes s fun stored s' => stored.1 ∈ s'.own.pool.handles := by
  unfold add
  have pooled := Stock.addIfNew_completes (stock_balanced settled) got fixed
  rw [Completes, ensures_bind, ensures_run]
  apply pooled.mono
  intro stored s' done
  rw [ensures_bind, ensures_emitIf]
  exact done

theorem scan_completes (settled : Settled s owed) (dated : CutPool.Dated s) :
    scan.Completes s fun survey s' => ∀ found ∈ survey.useful, found.1 ∈ s'.own.pool.handles := by
  unfold scan
  rw [Completes, ensures_bind, ensures_get, ensures_run]
  exact Stock.scan_completes (stock_balanced settled) dated _

end CutPool

namespace ColumnPool

variable {s : Linked ColumnPool}

theorem stock_balanced (settled : Settled s owed) :
    (stockPart.get s).Balanced (owed.columns + s.lp.loadedColumns) :=
  columnStock_balanced (s := ⟨s.own.pool, s.lp⟩) settled

theorem live (settled : Settled s owed) {column : ColumnId}
    (stored : column ∈ s.own.pool.handles) : s.lp.columns.contains column = true :=
  (stock_balanced settled).live stored

theorem add_completes (settled : Settled s owed) {column : ColumnId} {item : Column}
    (got : s.lp.columns.get column = .ok item) (fixed : item.modifiable = false) :
    (add column).Completes s fun stored s' => stored.1 ∈ s'.own.pool.handles :=
  ensures_run.2 (Stock.addIfNew_completes (stock_balanced settled) got fixed)

theorem scan_completes (settled : Settled s owed) (dated : ColumnPool.Dated s)
    (mode : PricingMode) : (scan mode).Completes s fun survey s' =>
      ∀ found ∈ survey.useful, found.1 ∈ s'.own.pool.handles := by
  unfold scan
  rw [Completes, ensures_bind, ensures_get, ensures_run]
  exact Stock.scan_completes (stock_balanced settled) dated _

end ColumnPool

/-! ### Rounds -/

theorem SeparationRound.add_completes {s : Linked SeparationRound} {row : RowId}
    (live : s.lp.rows.contains row = true) (efficacy : RawDouble) (forced : Bool) :
    (add row efficacy forced).Completes s fun _ _ => True := by
  unfold add
  rw [Completes, ensures_bind, ensures_get]
  cases s.own.cuts.find? (·.row == row) with
  | some stored =>
    dsimp only
    split
    · exact trivial
    · exact trivial
  | none =>
    dsimp only
    rw [ensures_bind, ensures_onLp]
    exact (Relaxation.captureRow_live live).mono fun _ _ _ => trivial

theorem PricingRound.add_completes {s : Linked PricingRound} {column : ColumnId}
    (live : s.lp.columns.contains column = true) (reducedCost : Float) (forced : Bool) :
    (add column reducedCost forced).Completes s fun _ _ => True := by
  obtain ⟨item, got⟩ := Registry.contains_iff_get.1 live
  unfold add
  rw [Completes, ensures_bind, ensures_get]
  split
  · exact trivial
  · apply Completes.of_read (a := item)
    · exact got
    · rw [Completes, ensures_bind, ensures_onLp]
      exact (Relaxation.captureColumn_live live).mono fun _ _ _ => trivial

/-! ### From a pool to a round -/

/-- What is handed over stays where it is meanwhile. -/
theorem handover_completes {τ υ β : Type} [Holder τ] [Holder υ] (pooled : β → τ → Prop)
    (store : β → Action (Linked υ) Unit) {s : Linked (τ × υ)} (settled : Settled s owed)
    {items : List β} (all : ∀ item ∈ items, pooled item s.own.1)
    (keeps : ∀ item t owed, Settled t owed →
      (store item).Reaches t fun t' => Settled t' owed ∧ t.lp.Still t'.lp)
    (succeeds : ∀ item (s : Linked (τ × υ)), Settled s owed → pooled item s.own.1 →
      (store item).Completes ⟨s.own.2, s.lp⟩ fun _ _ => True) :
    (items.forM fun item => onRight (store item)).Completes s fun _ _ => True := by
  let ready (item : β) (s' : Linked (τ × υ)) : Prop := pooled item s'.own.1
  have each (item : β) (s' : Linked (τ × υ)) (settled' : Settled s' owed)
      (here : ready item s') : (onRight (store item)).Completes s' fun _ s'' =>
        Settled s'' owed ∧ ∀ other, ready other s' → ready other s'' := by
    apply (onRight_frames.completes settled' (keeps item _)
      fun _ _ => succeeds item s' settled' here).mono
    intro _ s'' stored
    obtain ⟨settled'', t, rfl, _⟩ := stored
    exact ⟨settled'', fun _ there => there⟩
  exact (completes_forM each items settled all).mono fun _ _ _ => trivial

theorem CutPool.separate_completes {s : Linked (CutPool × SeparationRound)}
    (settled : Settled s owed) (dated : CutPool.Dated ⟨s.own.1, s.lp⟩) :
    separate.Completes s fun _ _ => True := by
  unfold separate
  apply (onLeft_frames.completes settled (fun _ left => scan_reaches left)
    fun _ left => scan_completes left dated).bind
  intro survey s' scanned
  obtain ⟨settled', t, rfl, useful, _⟩ := scanned
  apply Completes.bind (handover_completes (fun (found : RowId × Float) (cutPool : CutPool) =>
    found.1 ∈ cutPool.pool.handles)
    (fun found => SeparationRound.add found.1 (.ofFloat found.2) false)
    settled' useful ?_ ?_)
  · intro _ _ _
    exact trivial
  · intro found _ _ right
    exact SeparationRound.add_reaches right found.1 (.ofFloat found.2) false
  · intro found s'' settled'' pooled
    obtain ⟨_, left, _⟩ := onLeft_frames.enter settled''
    exact SeparationRound.add_completes (CutPool.live left pooled) (.ofFloat found.2) false

theorem ColumnPool.price_completes {s : Linked (ColumnPool × PricingRound)}
    (settled : Settled s owed) (dated : ColumnPool.Dated ⟨s.own.1, s.lp⟩) (mode : PricingMode) :
    (price mode).Completes s fun _ _ => True := by
  unfold price
  apply (onLeft_frames.completes settled (fun _ left => scan_reaches left mode)
    fun _ left => scan_completes left dated mode).bind
  intro survey s' scanned
  obtain ⟨settled', t, rfl, useful, _⟩ := scanned
  apply Completes.bind (handover_completes (fun (found : ColumnId × Float) (pool : ColumnPool) =>
    found.1 ∈ pool.pool.handles) (fun found => PricingRound.add found.1 found.2 (mode = .farkas))
    settled' useful ?_ ?_)
  · intro _ _ _
    exact trivial
  · intro found _ _ right
    exact PricingRound.add_reaches right found.1 found.2 (mode = .farkas)
  · intro found s'' settled'' pooled
    obtain ⟨_, left, _⟩ := onLeft_frames.enter settled''
    exact PricingRound.add_completes (ColumnPool.live left pooled) found.2 (mode = .farkas)

end BranchCutPrice
