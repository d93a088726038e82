import BranchCutPrice.Proofs.Coherence
import BranchCutPrice.Proofs.Dating

/-!
What a separation round adds. If the cuts that compete fit into the limit of the round, all
cuts that it stores are loaded in the end, those among them that the pool handed over because
the installed solution violates them; and the rows that are new in the relaxation are new at the
leaf.
-/

namespace BranchCutPrice

open BranchCutPrice.Action

/-! ### What stays as it was -/

/-- What the later relaxation says of a registered row and the installed solution was so before. -/
structure Relaxation.Follows (lp lp' : Relaxation) : Prop where
  primal : lp'.primal = lp.primal
  rows : lp'.rows.Within lp.rows

namespace Relaxation

instance : Std.Refl Follows where
  refl _ := ⟨rfl, .rfl⟩

instance : IsTrans Relaxation Follows where
  trans _ _ _ first second :=
    ⟨second.primal.trans first.primal, second.rows.trans first.rows⟩

theorem captureRow_follows (row : RowId) : (captureRow row).Respects Follows := by
  apply respects_change
  intro lp lp' changed
  cases captured : lp.rows.capture row with
  | error e => simp [captured, bind, Except.bind] at changed
  | ok rows =>
    simp only [captured, bind, Except.bind, pure, Except.pure, Except.ok.injEq] at changed
    rw [← changed]
    exact ⟨rfl, Registry.within_capture captured⟩

theorem releaseRow_follows (row : RowId) : (releaseRow row).Respects Follows := by
  apply respects_change
  intro lp lp' changed
  cases released : lp.rows.release row with
  | error e => simp [released, bind, Except.bind] at changed
  | ok rows =>
    simp only [released, bind, Except.bind, pure, Except.pure, Except.ok.injEq] at changed
    rw [← changed]
    exact ⟨rfl, Registry.within_release released⟩

theorem loadRow_follows (row : RowId) : (loadRow row).Respects Follows := by
  apply respects_change
  intro lp lp' changed
  split at changed
  · cases changed
  · cases captured : lp.rows.capture row with
    | error e => simp [captured, bind, Except.bind] at changed
    | ok rows =>
      simp only [captured, bind, Except.bind, pure, Except.pure, Except.ok.injEq] at changed
      rw [← changed]
      exact ⟨rfl, Registry.within_capture captured⟩

end Relaxation

/-- Capturing, releasing and loading rows lead to related relaxations. -/
structure Relaxation.Handles (R : Relaxation → Relaxation → Prop) : Prop where
  capture : ∀ row, (captureRow row).Respects R
  release : ∀ row, (releaseRow row).Respects R
  load : ∀ row, (loadRow row).Respects R

theorem Relaxation.handles_follows : Handles Follows :=
  ⟨captureRow_follows, releaseRow_follows, loadRow_follows⟩

/-- The relaxation beside a structure is related to the one before. -/
def Linked.Beside (R : Relaxation → Relaxation → Prop) {τ : Type} (s s' : Linked τ) : Prop :=
  R s.lp s'.lp

section Beside

open Relaxation (Handles)

variable {R : Relaxation → Relaxation → Prop} [Std.Refl R] [IsTrans Relaxation R] {τ α : Type}

instance : Std.Refl (@Linked.Beside R τ) where
  refl s := refl_of R s.lp

instance : IsTrans (Linked τ) (Linked.Beside R) where
  trans _ _ _ := trans_of R

omit [Std.Refl R] [IsTrans Relaxation R] in
theorem beside_onLp {act : Action Relaxation α} (respects : act.Respects R) :
    (onLp act : Action (Linked τ) α).Respects (Linked.Beside R) :=
  respects.run fun _ _ related => related

omit [IsTrans Relaxation R] in
theorem beside_onOwn (act : Action τ α) : (onOwn act).Respects (Linked.Beside R) :=
  respects_apart act fun s _ => refl_of R s.lp

theorem Tree.addRow_beside (handles : Handles R) (id : NodeId) (row : RowId) :
    (addRow id row).Respects (Linked.Beside R) := by
  unfold addRow
  apply respects_get.bind
  intro s
  split
  · exact respects_throw _
  · apply (respects_read _).bind
    intro node
    apply (beside_onLp (handles.load row)).bind
    intro _
    apply (beside_onLp (handles.capture row)).bind
    intro _
    exact beside_onOwn _

namespace SeparationRound

theorem add_beside (handles : Handles R) (row : RowId) (efficacy : RawDouble) (forced : Bool) :
    (add row efficacy forced).Respects (Linked.Beside R) := by
  unfold add
  apply respects_get.bind
  intro s
  split
  · split
    · exact beside_onOwn _
    · exact respects_pure _
  · exact (beside_onLp (handles.capture row)).bind fun _ => beside_onOwn _

theorem clear_beside (handles : Handles R) : clear.Respects (Linked.Beside R) :=
  respects_get.bind fun _ => (beside_onOwn _).bind fun _ =>
    beside_onLp (Respects.forM handles.release _)

theorem addCuts_beside (handles : Handles R) (node : NodeId) (limit optional : Nat)
    (cuts : List StoredCut) : (addCuts node limit optional cuts).Respects (Linked.Beside R) := by
  induction cuts generalizing optional with
  | nil => exact respects_pure _
  | cons cut rest ih =>
    unfold addCuts
    split
    · exact respects_pure _
    · apply respects_get.bind
      intro s
      split
      · exact ih optional
      · apply (Tree.addRow_beside handles node cut.row).bind
        intro _
        exact (ih _).bind fun _ => respects_pure _

theorem apply_beside (handles : Handles R) (node : NodeId) (limit : Nat) :
    (SeparationRound.apply node limit).Respects (Linked.Beside R) := by
  have left {α : Type} {act : Action (Linked SeparationRound) α}
      (respects : act.Respects (Linked.Beside R)) :
      (onLeft act : Action (Linked (SeparationRound × Tree)) α).Respects (Linked.Beside R) :=
    respects.run fun _ _ related => related
  have added (cuts : List StoredCut) :
      (onRight (addCuts node limit 0 cuts) : Action (Linked (SeparationRound × Tree)) Nat).Respects
        (Linked.Beside R) :=
    (addCuts_beside handles node limit 0 cuts).run fun _ _ related => related
  unfold SeparationRound.apply
  apply respects_get.bind
  intro s
  apply (added _).attempt.bind
  intro result
  apply (left (beside_onOwn _)).bind
  intro _
  apply (left (clear_beside handles)).bind
  intro _
  apply (respects_resume result).bind
  intro count
  exact (respects_emitIf _ _).bind fun _ => respects_pure _

end SeparationRound

end Beside

/-! ### Finding cuts -/

/-- The installed solution violates a registered row by more than the tolerance. -/
def CutPool.Violates (s : Linked CutPool) (row : RowId) : Prop :=
  ∃ item, s.lp.rows.get row = .ok item ∧ item.feasibility s.lp.primal < -s.own.tolerance

/-- What violates a row later did so before. -/
theorem CutPool.Violates.before {s s' : Linked CutPool} {row : RowId} (violates : Violates s' row)
    (follows : s.lp.Follows s'.lp) (tolerance : s'.own.tolerance = s.own.tolerance) :
    Violates s row := by
  obtain ⟨item, registered, low⟩ := violates
  rw [follows.primal, tolerance] at low
  exact ⟨item, follows.rows row item registered, low⟩

/-- What a scan leaves in the pool and what it takes out. -/
structure CutPool.Sifts (s : Linked CutPool) (found : RowId → Prop) (s' : Linked CutPool) :
    Prop where
  stays : ∀ row ∈ s'.own.pool.handles, s.lp.isRowLoaded row = true ∨ ¬Violates s row ∨ found row
  evicted : ∃ gone, s.own.pool.handles = gone + s'.own.pool.handles ∧ ∀ row ∈ gone, ¬Violates s row
  tolerance : s'.own.tolerance = s.own.tolerance
  follows : s.lp.Follows s'.lp

theorem CutPool.scan_sifts {s : Linked CutPool} {owed : Holdings} (settled : Settled s owed)
    (consistent : s.own.pool.Consistent)
    (fresh : ∀ entry ∈ s.own.pool.entries, entry.processed ≠ some s.lp.solutions) :
    scan.Yields s fun survey s' =>
      Sifts s (fun row => ∃ efficacy, (row, efficacy) ∈ survey.useful) s' := by
  have balanced : (stockPart.get s).Balanced (owed.rows + s.lp.loadedRows) :=
    rowStock_balanced (s := ⟨s.own.pool, s.lp⟩) settled
  unfold scan
  rw [Yields, ensures_bind, ensures_get, ensures_run]
  apply (Stock.scan_surveys balanced consistent s.lp.solutions _).yields
  intro survey stock surveys
  obtain ⟨gone, handles, useless⟩ := surveys.culled
  -- the verdict on a row is the one that the check of its object gives
  have judged {row : RowId} {verdict : Verdict} (member : (row, verdict) ∈ survey.verdicts)
      (violates : Violates s row) :
      verdict = .loaded ∧ s.lp.isRowLoaded row = true ∨ ∃ efficacy, verdict = .useful efficacy := by
    obtain ⟨item, registered, low⟩ := violates
    obtain ⟨_, item', registered', same⟩ := surveys.given _ member
    cases registered.symm.trans registered'
    change verdict = check s.lp s.own.tolerance row item at same
    rw [same]
    cases loaded : s.lp.isRowLoaded row with
    | true => exact .inl ⟨by simp [check, loaded], rfl⟩
    | false => exact .inr ⟨item.efficacy s.lp.primal, by simp [check, loaded, low]⟩
  refine ⟨fun row member => ?_, ⟨gone, handles, fun row member violates => ?_⟩, rfl,
    ⟨rfl, surveys.within⟩⟩
  · have before : row ∈ s.own.pool.handles := by
      rw [show s.own.pool.handles = gone + stock.pool.handles from handles]
      exact Multiset.mem_add.2 (.inr member)
    obtain ⟨entry, inside, rfl⟩ := Pool.mem_handles.1 before
    obtain ⟨verdict, given⟩ := surveys.judged entry inside (fresh entry inside)
    by_cases violates : Violates s entry.handle
    · obtain ⟨_, loaded⟩ | ⟨efficacy, useful⟩ := judged given violates
      · exact .inl loaded
      · rw [useful] at given
        exact .inr (.inr ⟨efficacy, mem_usefulScores.2 given⟩)
    · exact .inr (.inl violates)
  · obtain ⟨impossible, _⟩ | ⟨_, impossible⟩ := judged (useless row member) violates
    · cases impossible
    · cases impossible

theorem SeparationRound.add_stores {s : Linked SeparationRound} (row : RowId) (efficacy : RawDouble)
    (forced : Bool) : (add row efficacy forced).Yields s fun _ s' =>
      ∀ other, other ∈ s'.own.rows ↔ other = row ∨ other ∈ s.own.rows := by
  unfold add
  rw [Yields, ensures_bind, ensures_get]
  cases found : s.own.cuts.find? (·.row == row) with
  | some stored =>
    have here : row ∈ s.own.rows := by
      have same : stored.row = row := by simpa using List.find?_some found
      rw [← same]
      exact List.mem_map_of_mem (List.mem_of_find?_eq_some found)
    have unchanged (other : RowId) : other ∈ s.own.rows ↔ other = row ∨ other ∈ s.own.rows := by
      refine ⟨.inr, fun member => ?_⟩
      obtain rfl | member := member
      · exact here
      · exact member
    dsimp only
    split
    · rw [ensures_onOwn, ensures_modify, rows_force]
      exact unchanged
    · exact unchanged
  | none =>
    dsimp only
    rw [ensures_bind, ensures_onLp]
    apply yields_of_all
    intro _ lp
    rw [ensures_onOwn, ensures_modify, rows_push]
    intro other
    rw [List.mem_append, List.mem_singleton]
    exact or_comm

/-- The cuts that the pool hands over are stored. -/
theorem CutPool.separate_sifts {s : Linked (CutPool × SeparationRound)} {owed : Holdings}
    (settled : Settled s owed) (consistent : s.own.1.pool.Consistent)
    (fresh : ∀ entry ∈ s.own.1.pool.entries, entry.processed ≠ some s.lp.solutions) :
    separate.Yields s fun _ s' =>
      Sifts ⟨s.own.1, s.lp⟩ (· ∈ s'.own.2.rows) ⟨s'.own.1, s'.lp⟩ := by
  obtain ⟨_, left, _⟩ := onLeft_frames.enter settled
  unfold separate onLeft
  rw [Yields, ensures_bind, ensures_run]
  apply (scan_sifts left consistent fresh).yields
  intro survey s₁ sifts
  rw [ensures_bind]
  let keeps (s' : Linked (CutPool × SeparationRound)) : Prop :=
    s'.own.1 = s₁.own ∧ s₁.lp.Follows s'.lp
  have start : keeps ⟨(s₁.own, s.own.2), s₁.lp⟩ := ⟨rfl, refl_of Relaxation.Follows s₁.lp⟩
  have each (found : RowId × Float) (s' : Linked (CutPool × SeparationRound))
      (kept : keeps s') :
      (onRight (SeparationRound.add found.1 (.ofFloat found.2) false) :
        Action (Linked (CutPool × SeparationRound)) Unit).Yields s' fun _ s'' =>
          keeps s'' ∧ found.1 ∈ s''.own.2.rows ∧
            ∀ other : RowId × Float, other.1 ∈ s'.own.2.rows → other.1 ∈ s''.own.2.rows := by
    unfold onRight
    rw [Yields, ensures_run]
    apply ((SeparationRound.add_stores found.1 (.ofFloat found.2) false).and
      (SeparationRound.add_beside Relaxation.handles_follows found.1 (.ofFloat found.2) false
        _)).yields
    intro _ t added
    obtain ⟨rows, further⟩ := added
    exact ⟨⟨kept.1, trans_of Relaxation.Follows kept.2 further⟩, (rows _).2 (.inl rfl),
      fun _ there => (rows _).2 (.inr there)⟩
  apply (yields_forM each survey.useful start).yields
  intro _ s' done
  obtain ⟨⟨same, follows⟩, stored⟩ := done
  rw [ensures_pure]
  refine ⟨fun row member => ?_, ?_, ?_, trans_of Relaxation.Follows sifts.follows follows⟩
  · rw [same] at member
    obtain loaded | clean | ⟨efficacy, found⟩ := sifts.stays row member
    · exact .inl loaded
    · exact .inr (.inl clean)
    · exact .inr (.inr (stored _ found))
  · rw [same]
    exact sifts.evicted
  · rw [same]
    exact sifts.tolerance

/-! ### Adding cuts -/

/-- The rows of a node grew by the rows that were loaded. -/
structure Desk.Extends (desk : Desk) (id : NodeId) (new : List RowId) (desk' : Desk) : Prop where
  loaded : desk'.loaded = desk.loaded ++ new
  recorded : ∀ node basis added, desk.nodes.get? id = some node →
    node.payload = .leaf basis added →
      desk'.nodes.get? id = some { node with payload := .leaf basis (added ++ new) }
  replays : ∀ rows, Replays desk.nodes id rows → Replays desk'.nodes id (rows ++ new)

theorem Desk.Extends.none (desk : Desk) (id : NodeId) : desk.Extends id [] desk where
  loaded := (List.append_nil _).symm
  recorded node basis added found leaf := by
    rw [List.append_nil, ← leaf]
    exact found
  replays rows replays := by
    rw [List.append_nil]
    exact replays

theorem Desk.Extends.trans {desk desk' desk'' : Desk} {id : NodeId} {new more : List RowId}
    (first : desk.Extends id new desk') (second : desk'.Extends id more desk'') :
    desk.Extends id (new ++ more) desk'' where
  loaded := by
    rw [second.loaded, first.loaded, List.append_assoc]
  recorded node basis added found leaf := by
    have between := first.recorded node basis added found leaf
    rw [← List.append_assoc]
    exact second.recorded { node with payload := .leaf basis (added ++ new) } basis _ between rfl
  replays rows replays := by
    rw [← List.append_assoc]
    exact second.replays _ (first.replays rows replays)

/-- A leaf recorded some more rows, by which the rows of its relaxation grew. -/
structure Tree.Grew (tree : Tree) (id : NodeId) (new : List RowId) (tree' : Tree) : Prop where
  recorded : ∃ node basis added, tree.nodes.get? id = some node ∧
    node.payload = .leaf basis added ∧
      tree'.nodes.get? id = some { node with payload := .leaf basis (added ++ new) }
  listed : ∃ rows, tree.lpRows id = .ok rows ∧ tree'.lpRows id = .ok (rows ++ new)

theorem Desk.Extends.grew {tree tree' : Tree} {loaded loaded' new : List RowId} {id : NodeId}
    {node : Node} (extends' : (tree.desk loaded).Extends id new (tree'.desk loaded'))
    (shaped : (tree.desk loaded).Shaped) (shaped' : (tree'.desk loaded').Shaped)
    (leaf : tree.getLeaf id = .ok node) : tree.Grew id new tree' := by
  obtain ⟨found, basis, added, payload⟩ := Tree.getLeaf_ok.1 leaf
  obtain ⟨rows, listed, replays⟩ := Tree.lpRows_live shaped found
  exact ⟨⟨node, basis, added, found, payload, extends'.recorded node basis added found payload⟩,
    rows, listed, (Tree.lpRows_eq shaped').2 (extends'.replays rows replays)⟩

section Adding

variable {owed : Holdings} {id : NodeId} {node : Node} {basis : BasisId} {added : List RowId}

theorem Tree.addRow_extends {s : Linked Tree} (settled : Settled s owed) (shaped : s.desk.Shaped)
    (found : s.own.nodes.get? id = some node) (leaf : node.payload = .leaf basis added)
    (row : RowId) : (addRow id row).Yields s fun _ s' =>
      Settled s' owed ∧ s'.desk.Shaped ∧ s.desk.Extends id [row] s'.desk := by
  apply (addRow_ensures settled id row).yields
  intro _ s' done
  obtain ⟨⟨settled', moves⟩, own, loaded⟩ := done
  rw [recordRow_leaf found leaf] at own
  have nodes : s'.desk.nodes =
      s.desk.nodes.set id { node with payload := .leaf basis (added ++ [row]) } :=
    congrArg Tree.nodes own
  refine ⟨settled', moves.shaped_of_shrinking (by simp) shaped, loaded, ?_, ?_⟩
  · intro node' basis' added' found' leaf'
    cases found.symm.trans found'
    rw [leaf, Payload.leaf.injEq] at leaf'
    obtain ⟨rfl, rfl⟩ := leaf'
    rw [nodes]
    exact (SlotTable.get?_set found _ id).trans (if_pos rfl)
  · intro rows replays
    rw [nodes]
    exact shaped.replays_record found leaf replays row

/-- The cuts that compete for a limited number of places. -/
def Relaxation.contenders (lp : Relaxation) (cuts : List StoredCut) : Nat :=
  cuts.countP fun cut => !cut.forced && !lp.isRowLoaded cut.row

/-- Where more rows are loaded no more cuts compete. -/
theorem Relaxation.contenders_le {lp lp' : Relaxation}
    (grows : ∀ row, lp.isRowLoaded row = true → lp'.isRowLoaded row = true)
    (cuts : List StoredCut) : lp'.contenders cuts ≤ lp.contenders cuts := by
  apply List.countP_mono_left
  intro cut _ contends
  rw [Bool.and_eq_true, Bool.not_eq_true', Bool.not_eq_true'] at contends ⊢
  refine ⟨contends.1, Bool.eq_false_iff.2 fun loaded => ?_⟩
  rw [grows cut.row loaded] at contends
  cases contends.2

theorem StoredCut.before_weak : Ranking.Weak StoredCut.before where
  asymm a b precedes := by
    unfold before at precedes ⊢
    cases first : a.forced <;> cases second : b.forced <;> simp [first, second] at precedes ⊢
    all_goals exact precedes.le
  trans a b c first second := by
    unfold before at first second ⊢
    cases left : a.forced <;> cases middle : b.forced <;> cases right : c.forced <;>
      simp [left, middle, right] at first second ⊢
    all_goals exact second.trans first

/-- Once a cut is not forced, those behind it are not. -/
theorem StoredCut.sort_forced (cuts : List StoredCut) :
    (Ranking.sort StoredCut.before cuts).Pairwise fun a b => b.forced = true → a.forced = true := by
  apply (Ranking.sort_ordered before_weak cuts).imp
  intro a b follows forced
  unfold before at follows
  cases first : a.forced with
  | true => rfl
  | false => simp [forced, first] at follows

/-- Cuts that are not forced and do not compete are loaded. -/
theorem StoredCut.loaded_of_idle {lp : Relaxation} {cut : StoredCut} {rest : List StoredCut}
    (sorted : (cut :: rest).Pairwise fun a b => b.forced = true → a.forced = true)
    (unforced : cut.forced = false) (idle : lp.contenders (cut :: rest) = 0) :
    ∀ other ∈ cut :: rest, lp.isRowLoaded other.row = true := by
  intro other member
  have behind : other.forced = false := by
    obtain rfl | later := List.mem_cons.1 member
    · exact unforced
    · refine Bool.eq_false_iff.2 fun forced => ?_
      rw [(List.pairwise_cons.1 sorted).1 other later forced] at unforced
      cases unforced
  have loaded := List.countP_eq_zero.1 idle other member
  simpa [behind] using loaded

/-- With places for all contenders every cut is loaded. -/
theorem SeparationRound.addCuts_loads {s : Linked Tree} (settled : Settled s owed)
    (shaped : s.desk.Shaped) (found : s.own.nodes.get? id = some node)
    (leaf : node.payload = .leaf basis added) {limit optional : Nat} {cuts : List StoredCut}
    (sorted : cuts.Pairwise fun a b => b.forced = true → a.forced = true)
    (few : optional + s.lp.contenders cuts ≤ limit) :
    (addCuts id limit optional cuts).Yields s fun count s' =>
      (∃ new, s.desk.Extends id new s'.desk ∧ new.length = count) ∧
        ∀ cut ∈ cuts, cut.row ∈ s'.desk.loaded := by
  induction cuts generalizing s optional node added with
  | nil =>
    exact ⟨⟨[], .none s.desk id, rfl⟩, fun _ member => absurd member List.not_mem_nil⟩
  | cons cut rest ih =>
    have balanced : s.lp.Balanced (owed + Holder.holdings s.own) := settled
    have sorted' := (List.pairwise_cons.1 sorted).2
    have counted : s.lp.contenders (cut :: rest) = s.lp.contenders rest +
        if !cut.forced && !s.lp.isRowLoaded cut.row then 1 else 0 := List.countP_cons
    unfold addCuts
    split
    · -- no place is left, so no contender is
      rename_i full
      rw [Bool.and_eq_true, decide_eq_true_eq, Bool.not_eq_true'] at full
      have idle : s.lp.contenders (cut :: rest) = 0 := by
        omega
      refine ⟨⟨[], .none s.desk id, rfl⟩, fun other member => ?_⟩
      exact (balanced.isRowLoaded_iff other.row).1
        (StoredCut.loaded_of_idle sorted full.1 idle other member)
    · rw [Yields, ensures_bind, ensures_get]
      split
      · rename_i already
        have here : cut.row ∈ s.desk.loaded := (balanced.isRowLoaded_iff cut.row).1 already
        have fits : optional + s.lp.contenders rest ≤ limit := by
          omega
        apply (ih settled shaped found leaf sorted' fits).yields
        intro count s' done
        obtain ⟨⟨new, extends', length⟩, loads⟩ := done
        refine ⟨⟨new, extends', length⟩, fun other member => ?_⟩
        obtain rfl | later := List.mem_cons.1 member
        · rw [extends'.loaded]
          exact List.mem_append_left _ here
        · exact loads other later
      · rename_i unloaded
        rw [ensures_bind]
        apply (Tree.addRow_extends settled shaped found leaf cut.row).yields
        intro _ s₁ done
        obtain ⟨settled₁, shaped₁, extends₁⟩ := done
        have balanced₁ : s₁.lp.Balanced (owed + Holder.holdings s₁.own) := settled₁
        have here : cut.row ∈ s₁.desk.loaded := by
          rw [extends₁.loaded]
          exact List.mem_append_right _ (List.mem_singleton_self _)
        have grows (row : RowId) (loaded : s.lp.isRowLoaded row = true) :
            s₁.lp.isRowLoaded row = true := by
          rw [balanced.isRowLoaded_iff] at loaded
          rw [balanced₁.isRowLoaded_iff]
          rw [show s₁.lp.loadedRows = s.lp.loadedRows ++ [cut.row] from extends₁.loaded]
          exact List.mem_append_left _ loaded
        have fewer := Relaxation.contenders_le grows rest
        have fits : (if cut.forced then optional else optional + 1) + s₁.lp.contenders rest ≤
            limit := by
          cases forced : cut.forced with
          | true =>
            rw [if_pos rfl]
            omega
          | false =>
            simp only [forced, unloaded, Bool.not_false, Bool.and_self, if_true] at counted
            rw [if_neg (by simp)]
            omega
        rw [ensures_bind]
        have found₁ := extends₁.recorded node basis added found leaf
        apply (ih settled₁ shaped₁ found₁ rfl sorted' fits).yields
        intro count s₂ more
        obtain ⟨⟨new, extends₂, length⟩, loads⟩ := more
        rw [ensures_pure]
        refine ⟨⟨[cut.row] ++ new, extends₁.trans extends₂, ?_⟩, fun other member => ?_⟩
        · rw [List.length_append, length, List.length_singleton, Nat.add_comm]
        · obtain rfl | later := List.mem_cons.1 member
          · rw [extends₂.loaded]
            exact List.mem_append_left _ here
          · exact loads other later

/-- If there are places for all that compete, all stored cuts are loaded. -/
theorem SeparationRound.apply_loads {s : Linked (SeparationRound × Tree)}
    (settled : Settled s owed) (shaped : (treeBeside s).desk.Shaped)
    (found : s.own.2.nodes.get? id = some node) (leaf : node.payload = .leaf basis added)
    {limit : Nat} (few : s.lp.contenders s.own.1.cuts ≤ limit) :
    (SeparationRound.apply id limit).Yields s fun count s' =>
      (∃ new, (treeBeside s).desk.Extends id new (treeBeside s').desk ∧ new.length = count) ∧
        ∀ row ∈ s.own.1.rows, row ∈ s'.lp.loadedRows := by
  let loads (count : Nat) (desk : Desk) : Prop :=
    (∃ new, (treeBeside s).desk.Extends id new desk ∧ new.length = count) ∧
      ∀ row ∈ s.own.1.rows, row ∈ desk.loaded
  let any (_ : Error) (_ : Desk) : Prop := True
  have sorted := Ranking.sort_perm StoredCut.before s.own.1.cuts
  have adds :
      (addCuts id limit 0 (Ranking.sort StoredCut.before s.own.1.cuts)).Ensures (treeBeside s)
        (fun count t => Settled t (owed + Holder.holdings s.own.1) ∧ loads count t.desk)
        (fun e t => Settled t (owed + Holder.holdings s.own.1) ∧ any e t.desk) := by
    have fits : 0 + s.lp.contenders (Ranking.sort StoredCut.before s.own.1.cuts) ≤ limit := by
      rw [Nat.zero_add]
      exact (sorted.countP_eq _).trans_le few
    apply ((addCuts_loads settled.right shaped found leaf (StoredCut.sort_forced _) fits).and
      (addCuts_reaches settled.right id limit 0 _)).imp
    · intro count t done
      obtain ⟨⟨grown, all⟩, settled', _⟩ := done
      refine ⟨settled', grown, fun row member => ?_⟩
      obtain ⟨cut, stored, rfl⟩ := List.mem_map.1 member
      exact all cut (sorted.mem_iff.2 stored)
    · intro _ t refused
      exact ⟨refused.2.1, trivial⟩
  have applied : (SeparationRound.apply id limit).Ensures s
      (fun count s' => Settled s' owed ∧ loads count (treeBeside s').desk)
      (fun e s' => Settled s' owed ∧ any e (treeBeside s').desk) := apply_ensures adds
  exact applied.yields fun _ _ done => done.2

end Adding

/-! ### Rounds -/

namespace Session

/-- The session after the scan that a separation round begins with. -/
def scanned (s : Session) : Session :=
  ((linked (cutPoolPart.pair cutsPart)).run CutPool.separate s).state

/-- What a separation round at a leaf comes to: the pool keeps no violated cut that is not
loaded and lost none, and what was loaded was recorded at the leaf. -/
structure Separated (s : Session) (id : NodeId) (count : Nat) (s' : Session) : Prop where
  stays : ∀ entry ∈ s'.cutPool.pool.entries, s'.lp.isRowLoaded entry.handle = true ∨
    ¬CutPool.Violates ⟨s'.cutPool, s'.lp⟩ entry.handle
  evicted : ∃ gone, s.cutPool.pool.handles = gone + s'.cutPool.pool.handles ∧
    ∀ row ∈ gone, ¬CutPool.Violates ⟨s.cutPool, s.lp⟩ row
  grown : ∃ new, new.length = count ∧ s'.lp.loadedRows = s.lp.loadedRows ++ new ∧
    s.tree.Grew id new s'.tree

variable {s : Session} {owed : Holdings}

/-- Whatever is done with the cuts of a round, the pool stays as the scan left it. -/
theorem Separated.of_sifts {s' : Session} {found : RowId → Prop} {swept : Linked CutPool}
    {id : NodeId} {node : Node} {count : Nat} (settled : Settled s owed)
    (settled' : Settled s' owed) (shaped : s.desk.Shaped) (shaped' : s'.desk.Shaped)
    (leaf : s.tree.getLeaf id = .ok node) (sifts : CutPool.Sifts ⟨s.cutPool, s.lp⟩ found swept)
    (pool : s'.cutPool = swept.own) (follows : s.lp.Follows s'.lp)
    (grown : ∃ new, s.desk.Extends id new s'.desk ∧ new.length = count)
    (loads : ∀ row, found row → row ∈ s'.lp.loadedRows) : Separated s id count s' := by
  have balanced : s.lp.Balanced (owed + Ledger.held s) := settled
  have balanced' : s'.lp.Balanced (owed + Ledger.held s') := settled'
  obtain ⟨new, extends', length⟩ := grown
  refine ⟨fun entry member => ?_, ?_, new, length, extends'.loaded,
    extends'.grew shaped shaped' leaf⟩
  · rw [pool] at member ⊢
    obtain loaded | clean | stored :=
      sifts.stays entry.handle (Pool.mem_handles.2 ⟨entry, member, rfl⟩)
    · rw [balanced.isRowLoaded_iff] at loaded
      rw [balanced'.isRowLoaded_iff]
      rw [show s'.lp.loadedRows = s.lp.loadedRows ++ new from extends'.loaded]
      exact .inl (List.mem_append_left _ loaded)
    · exact .inr fun violates => clean (violates.before follows sifts.tolerance)
    · exact .inl ((balanced'.isRowLoaded_iff _).2 (loads _ stored))
  · rw [pool]
    exact sifts.evicted

theorem separationRound_separates (settled : Settled s owed) (shaped : s.desk.Shaped)
    (dated : s.Dated) (fresh : s.cutPool.pool.processed ≠ some s.lp.solutions) {id : NodeId}
    {node : Node} (leaf : s.tree.getLeaf id = .ok node)
    (few : s.scanned.lp.contenders s.scanned.cuts.cuts ≤ s.settings.maxCutsPerRound) :
    (separationRound id).Yields s fun count s' => Separated s id count s' := by
  obtain ⟨found, basis, added, payload⟩ := Tree.getLeaf_ok.1 leaf
  have unchecked (entry : PoolEntry .row) (member : entry ∈ s.cutPool.pool.entries) :
      entry.processed ≠ some s.lp.solutions := dated.cutPool.unchecked fresh member
  have separates (owed : Holdings)
      (inside : Settled ((linked (cutPoolPart.pair cutsPart)).get s) owed) :
      CutPool.separate.Ensures ((linked (cutPoolPart.pair cutsPart)).get s)
        (fun _ t => Settled t owed ∧ Relaxation.Still s.lp t.lp ∧
          CutPool.Sifts ⟨s.cutPool, s.lp⟩ (· ∈ t.own.2.rows) ⟨t.own.1, t.lp⟩)
        (fun _ t => Settled t owed ∧ True) := by
    apply ((CutPool.separate_reaches inside).and
      (CutPool.separate_sifts inside dated.cutPool.consistent unchecked)).imp
    · intro _ _ done
      exact ⟨done.1.1, done.1.2, done.2⟩
    · intro _ _ refused
      exact ⟨refused.1.1, trivial⟩
  unfold separationRound
  rw [Yields, ensures_bind]
  apply ((separation_frames.ensures settled separates).and (ensures_ran _ s)).yields
  intro finding s₁ done
  obtain ⟨⟨settled₁, t, same, still, sifts⟩, _, state⟩ := done
  rw [show s.scanned = s₁ from state] at few
  have tree₁ : s₁.tree = s.tree := by rw [same]; rfl
  have settings₁ : s₁.settings = s.settings := by rw [same]; rfl
  have pool₁ : s₁.cutPool = t.own.1 := congrArg Session.cutPool same
  have cuts₁ : s₁.cuts = t.own.2 := congrArg Session.cuts same
  have lp₁ : s₁.lp = t.lp := congrArg Session.lp same
  have follows₁ : s.lp.Follows s₁.lp := lp₁ ▸ sifts.follows
  have desk₁ : s₁.desk = s.desk := by
    unfold desk
    rw [tree₁, lp₁, still.loadedRows]
  have shaped₁ : s₁.desk.Shaped := by
    rw [desk₁]
    exact shaped
  rw [ensures_bind, ensures_get]
  split
  · rename_i idle
    rw [Bool.and_eq_true, List.isEmpty_iff] at idle
    have empty : t.own.2.rows = [] := by
      rw [← cuts₁]
      exact congrArg (List.map StoredCut.row) idle.2
    rw [ensures_pure]
    refine .of_sifts settled settled₁ shaped shaped₁ leaf sifts pool₁ follows₁ ⟨[], ?_, rfl⟩ ?_
    · rw [desk₁]
      exact .none s.desk id
    · rw [empty]
      exact fun _ member => absurd member List.not_mem_nil
  · have applies (owed : Holdings)
        (inside : Settled ((linked (cutsPart.pair treePart)).get s₁) owed) :
        (SeparationRound.apply id s₁.settings.maxCutsPerRound).Ensures
          ((linked (cutsPart.pair treePart)).get s₁)
          (fun count u => Settled u owed ∧
            ((∃ new, s₁.desk.Extends id new (SeparationRound.treeBeside u).desk ∧
                new.length = count) ∧ ∀ row ∈ s₁.cuts.rows, row ∈ u.lp.loadedRows) ∧
              s₁.lp.Follows u.lp ∧ (SeparationRound.treeBeside u).desk.Shaped)
          (fun _ u => Settled u owed ∧ True) := by
      have limit : s₁.lp.contenders s₁.cuts.cuts ≤ s₁.settings.maxCutsPerRound := by
        rw [settings₁]
        exact few
      have found₁ : s₁.tree.nodes.get? id = some node := by
        rw [tree₁]
        exact found
      apply (((SeparationRound.apply_reaches inside id _).and
        (SeparationRound.apply_loads inside shaped₁ found₁ payload limit)).and
          (SeparationRound.apply_beside Relaxation.handles_follows id _ _)).imp
      · intro _ _ done
        obtain ⟨⟨⟨settled', moves⟩, loads⟩, follows⟩ := done
        exact ⟨settled', loads, follows, moves.shaped_of_shrinking (by simp) shaped₁⟩
      · intro _ _ refused
        exact ⟨refused.1.1.1, trivial⟩
    rw [ensures_bind]
    apply (application_frames.ensures settled₁ applies).yields
    intro count s₂ applied
    obtain ⟨settled₂, u, rfl, ⟨grown, loads⟩, follows, shaped₂⟩ := applied
    rw [ensures_bind, ensures_modify, ensures_pure]
    rw [desk₁] at grown
    rw [cuts₁] at loads
    exact .of_sifts settled settled₂ shaped shaped₂ leaf sifts pool₁
      (trans_of Relaxation.Follows follows₁ follows) grown loads

end Session

variable {ι : Type} [DecidableEq ι] [Inhabited ι] [Fintype ι] {rule : Rule ι} {w : World ι}

/-- A separation round at a leaf for a solution that the pool was not scanned for yet misses no
violated cut, if there are places for all cuts that compete. -/
theorem violated_cuts_loaded (reached : Reachable rule w) {id : NodeId} {node : Node}
    (leaf : w.session.tree.getLeaf id = .ok node)
    (fresh : w.session.cutPool.pool.processed ≠ some w.session.lp.solutions)
    (few : w.session.scanned.lp.contenders w.session.scanned.cuts.cuts ≤
      w.session.settings.maxCutsPerRound) {count : Nat}
    (ended : (Session.separationRound id w.session).result = .ok count) :
    Session.Separated w.session id count (Session.separationRound id w.session).state := by
  obtain ⟨_, settled, shaped, _⟩ := reached.session
  exact ensures_of_ok ended (Session.separationRound_separates settled shaped
    reached.dated.session fresh leaf few)

/-- A cut that the installed solution violates is pooled beside a root. -/
def pooling : List (Call Unit) :=
  [.client (.createRow ⟨"bound", ⟨1, [(0, 1)]⟩, 0, 1, false⟩), .cutPool () (.add ⟨1, 0⟩),
    .client (.installSolution #[5] #[] 0)]

/-- A root with a pooled cut. -/
def World.pooled : World Unit :=
  World.initial.after (rooting ++ pooling)

theorem violated_cuts_loaded_pooled : Reachable (fun _ _ => True) World.pooled ∧
    World.pooled.lp.loadedRows = [⟨0, 0⟩] ∧
    (Session.separationRound ⟨0, 0⟩ World.pooled.session).state.lp.loadedRows =
      [⟨0, 0⟩, ⟨1, 0⟩] ∧
    Session.Separated World.pooled.session ⟨0, 0⟩ 1
      (Session.separationRound ⟨0, 0⟩ World.pooled.session).state := by
  have plays : Plays (fun _ _ => True) World.initial (rooting ++ pooling) := by
    decide +kernel
  have reached : Reachable (fun _ _ => True) World.pooled := plays.reachable
  have leaf : ∃ node, World.pooled.session.tree.getLeaf ⟨0, 0⟩ = .ok node := ⟨_, rfl⟩
  obtain ⟨node, leaf⟩ := leaf
  have fresh : World.pooled.session.cutPool.pool.processed ≠
      some World.pooled.session.lp.solutions := by
    decide +kernel
  have few : World.pooled.session.scanned.lp.contenders World.pooled.session.scanned.cuts.cuts ≤
      World.pooled.session.settings.maxCutsPerRound := by
    decide +kernel
  have ended : (Session.separationRound ⟨0, 0⟩ World.pooled.session).result = .ok 1 := by
    decide +kernel
  exact ⟨reached, by decide +kernel, by decide +kernel,
    violated_cuts_loaded reached leaf fresh few ended⟩

end BranchCutPrice
