import BranchCutPrice.Proofs.Dating

/-!
What separation rounds store. A row that is handed in again is not stored again, but it becomes
forced if it is so this time. Whoever hands in cuts and wherever they go, the rows of a round are
distinct and its forced cuts are counted.
-/

namespace BranchCutPrice

open BranchCutPrice.Action

namespace SeparationRound

variable {round : SeparationRound} {offers : List StoredCut}

/-- The stored rows are distinct and the forced cuts are counted. -/
structure Tallied (round : SeparationRound) : Prop where
  distinct : round.rows.Nodup
  forced : round.forcedCount = round.cuts.countP StoredCut.forced

/-- The rows are those of some offers in the order in which they came first, with the efficacies
that they came with first. A cut is forced if its row ever came as forced. -/
structure Stocks (offers : List StoredCut) (round : SeparationRound) : Prop where
  rows : round.rows = (offers.map StoredCut.row).eraseDups
  efficacy : ∀ cut ∈ round.cuts,
    (offers.find? (·.row == cut.row)).map StoredCut.efficacy = some cut.efficacy
  forced : ∀ cut ∈ round.cuts,
    cut.forced = offers.any fun offer => offer.row == cut.row && offer.forced

/-- The round after a cut was handed in. -/
def offer (round : SeparationRound) (cut : StoredCut) : SeparationRound :=
  match round.cuts.find? (·.row == cut.row) with
  | some stored => if cut.forced && !stored.forced then round.force cut.row else round
  | none => round.push cut

theorem add_offers (s : Linked SeparationRound) (row : RowId) (efficacy : RawDouble)
    (forced : Bool) :
    (add row efficacy forced).Ensures s
      (fun _ s' => s'.own = s.own.offer ⟨row, efficacy, forced⟩) (fun _ s' => s'.own = s.own) := by
  unfold add offer
  rw [ensures_bind, ensures_get]
  cases s.own.cuts.find? (·.row == row) with
  | some stored =>
    dsimp only
    split
    · rfl
    · rfl
  | none =>
    dsimp only
    rw [ensures_bind, ensures_onLp]
    exact (ensures_ran _ _).imp (fun _ _ _ => rfl) fun _ _ _ => rfl

theorem mem_rows {row : RowId} :
    row ∈ round.rows ↔ ∃ cut ∈ round.cuts, cut.row = row :=
  List.mem_map

theorem not_mem_rows {row : RowId} (none : round.cuts.find? (·.row == row) = none) :
    row ∉ round.rows := by
  intro member
  obtain ⟨cut, stored, rfl⟩ := mem_rows.1 member
  simpa using List.find?_eq_none.1 none cut stored

/-- A stored row belongs to one cut only. -/
theorem Tallied.eq_of_row (tallied : round.Tallied) {cut other : StoredCut}
    (member : cut ∈ round.cuts) (member' : other ∈ round.cuts) (same : cut.row = other.row) :
    cut = other :=
  List.inj_on_of_nodup_map tallied.distinct member member' same

/-! ### One offer -/

/-- One more cut is forced, and the others stay as they are. -/
theorem Tallied.force (tallied : round.Tallied) {stored : StoredCut} (member : stored ∈ round.cuts)
    (optional : stored.forced = false) : (round.force stored.row).Tallied := by
  obtain ⟨front, rest, split⟩ := List.append_of_mem member
  have distinct := tallied.distinct
  unfold rows at distinct
  rw [split, List.map_append, List.map_cons, List.nodup_middle, List.nodup_cons,
    List.mem_append] at distinct
  have others (part : List StoredCut) (apart : stored.row ∉ part.map StoredCut.row) :
      (part.map fun cut => if cut.row = stored.row then { cut with forced := true } else cut) =
        part := by
    refine (List.map_congr_left fun cut inside => if_neg fun same => ?_).trans (List.map_id part)
    exact apart (same ▸ List.mem_map_of_mem inside)
  constructor
  · rw [rows_force]
    exact tallied.distinct
  · have counted := tallied.forced
    unfold SeparationRound.force
    rw [split, List.countP_append, List.countP_cons, optional] at counted
    rw [split, List.map_append, List.map_cons, others front (distinct.1 ∘ .inl),
      others rest (distinct.1 ∘ .inr), if_pos rfl, List.countP_append, List.countP_cons, counted]
    simp [Nat.add_assoc]

theorem Tallied.offer (tallied : round.Tallied) (cut : StoredCut) : (round.offer cut).Tallied := by
  unfold SeparationRound.offer
  split
  · rename_i stored found
    split
    · rename_i rises
      rw [Bool.and_eq_true, Bool.not_eq_true'] at rises
      have same : stored.row = cut.row := by simpa using List.find?_some found
      rw [← same]
      exact tallied.force (List.mem_of_find?_eq_some found) rises.2
    · exact tallied
  · rename_i none
    constructor
    · rw [rows_push]
      exact List.nodup_append.2 ⟨tallied.distinct, List.nodup_singleton _, fun row member other here =>
        fun same => not_mem_rows none (List.mem_singleton.1 here ▸ same ▸ member)⟩
    · unfold push
      rw [List.countP_append, ← tallied.forced, List.countP_singleton]
      split <;> rfl

theorem Stocks.mem_rows (stocks : Stocks offers round) {row : RowId} :
    row ∈ round.rows ↔ ∃ offer ∈ offers, offer.row = row := by
  rw [stocks.rows, List.mem_eraseDups, List.mem_map]

/-- A row that was stored before. -/
theorem Stocks.again (stocks : Stocks offers round) {cut : StoredCut}
    (stored : cut.row ∈ round.rows) {round' : SeparationRound} (rows : round'.rows = round.rows)
    (efficacy : ∀ other ∈ round'.cuts, ∃ before ∈ round.cuts, other.row = before.row ∧
      other.efficacy = before.efficacy ∧
        other.forced = (before.forced || cut.row == before.row && cut.forced)) :
    Stocks (offers ++ [cut]) round' := by
  refine ⟨?_, fun other member => ?_, fun other member => ?_⟩
  · rw [rows, stocks.rows, List.map_append, List.eraseDups_append]
    have known := stocks.mem_rows.1 stored
    simp [List.removeAll, known]
  · obtain ⟨before, here, row, same, _⟩ := efficacy other member
    have first := stocks.efficacy before here
    rw [row, same, List.find?_append]
    cases found : offers.find? (·.row == before.row) with
    | none => simp [found] at first
    | some offer =>
      rw [found] at first
      exact first
  · obtain ⟨before, here, row, _, forced⟩ := efficacy other member
    rw [forced, row, List.any_append, ← stocks.forced before here]
    simp

theorem Stocks.offer (stocks : Stocks offers round) (cut : StoredCut) :
    Stocks (offers ++ [cut]) (round.offer cut) := by
  unfold SeparationRound.offer
  split
  · rename_i stored found
    have same : stored.row = cut.row := by simpa using List.find?_some found
    have inside := List.mem_of_find?_eq_some found
    have known : cut.row ∈ round.rows := SeparationRound.mem_rows.2 ⟨stored, inside, same⟩
    split
    · rename_i rises
      rw [Bool.and_eq_true] at rises
      refine stocks.again known (rows_force round cut.row) fun other member => ?_
      obtain ⟨before, here, rfl⟩ := List.mem_map.1 member
      refine ⟨before, here, ?_⟩
      by_cases this : before.row = cut.row
      · simp [this, rises.1]
      · simp [this, Ne.symm this]
    · rename_i stays
      refine stocks.again known rfl fun other member => ⟨other, member, rfl, rfl, ?_⟩
      -- a cut that comes as forced is so already
      cases forced : cut.forced with
      | false => simp
      | true =>
        by_cases this : cut.row = other.row
        · have already : stored.forced = true := by simpa [forced] using stays
          rw [stocks.forced other member, ← this, ← same, ← stocks.forced stored inside, already]
          rfl
        · simp [this]
  · rename_i none
    have unknown := not_mem_rows none
    refine ⟨?_, fun other member => ?_, fun other member => ?_⟩
    · rw [rows_push, stocks.rows, List.map_append, List.eraseDups_append]
      have new : ¬∃ offer ∈ offers, offer.row = cut.row := fun known =>
        unknown (stocks.mem_rows.2 known)
      simp [List.removeAll, new, List.eraseDups_cons]
    all_goals
      obtain old | rfl := (List.mem_append.1 member).imp_right List.mem_singleton.1
    · rw [List.find?_append]
      have first := stocks.efficacy other old
      cases found : offers.find? (·.row == other.row) with
      | none => simp [found] at first
      | some offer =>
        rw [found] at first
        exact first
    · have absent : offers.find? (·.row == other.row) = .none := by
        rw [List.find?_eq_none]
        intro offer handed same
        exact unknown (stocks.mem_rows.2 ⟨offer, handed, by simpa using same⟩)
      simp [List.find?_append, absent]
    · have different : cut.row ≠ other.row := fun same =>
        unknown (same ▸ List.mem_map_of_mem old)
      rw [List.any_append, ← stocks.forced other old]
      simp [different]
    · have absent : (offers.any fun offer => offer.row == other.row && offer.forced) = false := by
        rw [List.any_eq_false]
        intro offer handed both
        rw [Bool.and_eq_true, beq_iff_eq] at both
        exact unknown (stocks.mem_rows.2 ⟨offer, handed, both.1⟩)
      rw [List.any_append, absent]
      simp

theorem eraseDups_of_nodup {rows : List RowId} (distinct : rows.Nodup) : rows.eraseDups = rows := by
  induction rows with
  | nil => rfl
  | cons row rest ih =>
    obtain ⟨absent, distinct⟩ := List.nodup_cons.1 distinct
    have apart : rest.filter (fun other => !other == row) = rest := by
      rw [List.filter_eq_self]
      intro other member
      simpa using fun same : other = row => absent (same ▸ member)
    rw [List.eraseDups_cons, apart, ih distinct]

/-- What a round stores may have been handed in as it is. -/
theorem Tallied.stocks (tallied : round.Tallied) : Stocks round.cuts round where
  rows := (eraseDups_of_nodup tallied.distinct).symm
  efficacy cut member := by
    cases found : round.cuts.find? (·.row == cut.row) with
    | none => exact absurd (List.mem_map_of_mem member) (not_mem_rows found)
    | some other =>
      have same : other.row = cut.row := by simpa using List.find?_some found
      rw [tallied.eq_of_row (List.mem_of_find?_eq_some found) member same]
      rfl
  forced cut member := by
    rw [Bool.eq_iff_iff, List.any_eq_true]
    constructor
    · intro forced
      exact ⟨cut, member, by simp [forced]⟩
    · rintro ⟨other, there, both⟩
      rw [Bool.and_eq_true, beq_iff_eq] at both
      rw [← tallied.eq_of_row there member both.1]
      exact both.2

theorem Tallied.empty : empty.Tallied :=
  ⟨List.nodup_nil, rfl⟩

/-! ### Calls on a round -/

theorem add_tallied (row : RowId) (efficacy : RawDouble) (forced : Bool) :
    (add row efficacy forced).Respects (Keeping fun s => s.own.Tallied) := by
  intro s
  apply (add_offers s row efficacy forced).imp
  · intro _ s' added tallied
    rw [added]
    exact tallied.offer _
  · intro _ s' same tallied
    rw [same]
    exact tallied

theorem clear_empties (s : Linked SeparationRound) : clear.Reaches s fun s' => s'.own = empty := by
  unfold Reaches clear
  rw [ensures_bind, ensures_get, ensures_bind, ensures_onOwn, ensures_modify, ensures_onLp]
  exact reaches_iff.2 rfl

theorem apply_empties (node : NodeId) (limit : Nat) (s : Linked (SeparationRound × Tree)) :
    (SeparationRound.apply node limit).Reaches s fun s' => s'.own.1 = empty := by
  have closes (cuts : List StoredCut) (added : Except Error Nat)
      (s : Linked (SeparationRound × Tree)) :
      (do
        onLeft (onOwn (modify fun round => { round with cuts := cuts }))
        onLeft clear
        let added ← Action.resume added
        Action.emitIf (0 < added) (.cutsApplied added node.index)
        return added : Action (Linked (SeparationRound × Tree)) Nat).Reaches s
        fun s' => s'.own.1 = empty := by
    unfold Reaches onLeft
    rw [ensures_bind, ensures_run, ensures_onOwn, ensures_modify, ensures_bind, ensures_run]
    apply (clear_empties _).imp
    · intro _ t emptied
      cases added with
      | ok count =>
        rw [ensures_bind, ensures_resume_ok, ensures_bind, ensures_emitIf, ensures_pure]
        exact emptied
      | error e =>
        rw [ensures_bind, ensures_resume_error]
        exact emptied
    · intro _ t emptied
      exact emptied
  unfold Reaches SeparationRound.apply
  rw [ensures_bind, ensures_get, ensures_bind, ensures_attempt]
  apply (ensures_ran _ s).imp
  · intro count s' _
    exact closes _ (.ok count) s'
  · intro e s' _
    exact closes _ (.error e) s'

end SeparationRound

theorem CutRoundCall.perform_tallied (call : CutRoundCall) :
    call.perform.Respects (Keeping fun s => s.own.Tallied) := by
  cases call with
  | add row efficacy forced => exact SeparationRound.add_tallied row efficacy forced
  | clear =>
    intro s
    apply (SeparationRound.clear_empties s).mono
    intro s' emptied _
    rw [emptied]
    exact .empty

theorem CutPool.separate_tallied :
    separate.Respects (Keeping fun s : Linked (CutPool × SeparationRound) => s.own.2.Tallied) := by
  unfold separate
  apply (respects_apart scan fun _ _ tallied => tallied).bind
  intro survey
  refine Respects.bind (Respects.forM (fun cut => ?_) _) fun _ => respects_pure _
  exact (SeparationRound.add_tallied cut.1 (.ofFloat cut.2) false).run fun _ _ keeps => keeps

/-! ### Sessions -/

/-- The round of a session is tallied. -/
def Session.Tallied (s : Session) : Prop :=
  s.cuts.Tallied

namespace Session

/-- An operation beside the round. -/
theorem beside_tallied {τ α : Type} {part : Part Session τ} (act : Action τ α)
    (apart : ∀ s t, (part.set s t).cuts = s.cuts) :
    (part.run act).Respects (Keeping Session.Tallied) := by
  apply respects_apart
  intro s t tallied
  unfold Session.Tallied
  rw [apart]
  exact tallied

theorem modify_tallied {f : Session → Session} (apart : ∀ s, (f s).cuts = s.cuts) :
    (modify f : Action Session Unit).Respects (Keeping Session.Tallied) := by
  apply respects_modify
  intro s tallied
  unfold Session.Tallied
  rw [apart]
  exact tallied

section Beside

variable {α : Type}

theorem onTree_tallied (act : Action (Linked Tree) α) :
    (onTree act).Respects (Keeping Session.Tallied) :=
  beside_tallied act fun _ _ => rfl

theorem tree_tallied (act : Action Tree α) :
    (treePart.run act).Respects (Keeping Session.Tallied) :=
  beside_tallied act fun _ _ => rfl

theorem lp_tallied (act : Action Relaxation α) :
    (lpPart.run act).Respects (Keeping Session.Tallied) :=
  beside_tallied act fun _ _ => rfl

end Beside

theorem cuts_tallied {act : Action (Linked SeparationRound) Unit}
    (keeps : act.Respects (Keeping fun s => s.own.Tallied)) :
    ((linked cutsPart).run act).Respects (Keeping Session.Tallied) :=
  keeps.run fun _ _ kept => kept

theorem start_tallied : start.Respects (Keeping Session.Tallied) := by
  have adopted (root : NodeId) (rows : List RowId) :
      (adoptRows root rows).Respects (Keeping Session.Tallied) :=
    Respects.forM (fun _ => (onTree_tallied _).bind fun _ => lp_tallied _) rows
  unfold start
  apply respects_get.bind
  intro s
  apply (lp_tallied _).bind
  intro _
  apply (lp_tallied _).bind
  intro _
  apply (lp_tallied _).bind
  intro basis
  apply (onTree_tallied _).attempt.bind
  intro created
  apply (lp_tallied _).bind
  intro _
  apply (respects_resume created).bind
  intro root
  apply (onTree_tallied _).bind
  intro _
  apply (adopted root _).bind
  intro _
  apply (tree_tallied _).bind
  intro _
  exact respects_get.bind fun _ => (respects_emitIf _ _).bind fun _ => respects_pure _

theorem reportProgress_tallied : reportProgress.Respects (Keeping Session.Tallied) :=
  respects_get.bind fun _ => respects_emitIf _ _

theorem nextAmong_tallied (remaining : Nat) :
    (nextAmong remaining).Respects (Keeping Session.Tallied) := by
  induction remaining with
  | zero => exact respects_pure _
  | succ remaining ih =>
    unfold nextAmong
    apply (tree_tallied _).bind
    intro popped
    split
    · exact respects_pure _
    · apply (respects_read _).bind
      intro node
      apply respects_get.bind
      intro s
      split
      · apply (onTree_tallied _).bind
        intro _
        refine (modify_tallied ?_).bind fun _ => ih
        exact fun _ => rfl
      · apply (onTree_tallied _).bind
        intro _
        refine (modify_tallied ?_).bind fun _ =>
          reportProgress_tallied.bind fun _ => respects_pure _
        exact fun _ => rfl

theorem addCut_tallied (row : RowId) (forced : Bool) :
    (addCut row forced).Respects (Keeping Session.Tallied) := by
  have pooled : (pooledCut row).Respects (Keeping Session.Tallied) := by
    unfold pooledCut
    apply (respects_read _).bind
    intro item
    split
    · exact respects_pure _
    · exact (beside_tallied _ fun _ _ => rfl).bind fun _ => respects_pure _
  unfold addCut
  apply pooled.bind
  intro stored
  apply (respects_read _).bind
  intro item
  exact respects_get.bind fun _ => cuts_tallied (SeparationRound.add_tallied _ _ _)

theorem separationRound_tallied (id : NodeId) :
    (separationRound id).Respects (Keeping Session.Tallied) := by
  have separated : ((linked (cutPoolPart.pair cutsPart)).run CutPool.separate).Respects
      (Keeping Session.Tallied) := CutPool.separate_tallied.run fun _ _ kept => kept
  have applied (limit : Nat) :
      ((linked (cutsPart.pair treePart)).run (SeparationRound.apply id limit)).Respects
        (Keeping Session.Tallied) := by
    intro s
    apply ensures_run.2
    apply Reaches.mono (SeparationRound.apply_empties id limit _)
    intro t emptied _
    change t.own.1.Tallied
    rw [emptied]
    exact .empty
  unfold separationRound
  apply separated.bind
  intro finding
  apply respects_get.bind
  intro s
  split
  · exact respects_pure _
  · apply (applied _).bind
    intro added
    refine (modify_tallied ?_).bind fun _ => respects_pure _
    exact fun _ => rfl

theorem addPricedColumn_tallied (column : ColumnId) (reducedCost : Float) (forced : Bool) :
    (addPricedColumn column reducedCost forced).Respects (Keeping Session.Tallied) := by
  have pooled : (pooledColumn column).Respects (Keeping Session.Tallied) := by
    unfold pooledColumn
    apply (respects_read _).bind
    intro item
    split
    · exact respects_pure _
    · exact (beside_tallied _ fun _ _ => rfl).bind fun _ => respects_pure _
  exact pooled.bind fun _ => beside_tallied _ fun _ _ => rfl

theorem pricingRound_tallied (mode : PricingMode) :
    (pricingRound mode).Respects (Keeping Session.Tallied) := by
  unfold pricingRound
  apply (beside_tallied _ fun _ _ => rfl).bind
  intro _
  apply respects_get.bind
  intro s
  apply (beside_tallied _ fun _ _ => rfl).bind
  intro result
  refine (modify_tallied ?_).bind fun _ => respects_pure _
  exact fun _ => rfl

theorem branch_tallied (id : NodeId) (children : List (List BoundChange)) :
    (branch id children).Respects (Keeping Session.Tallied) := by
  have child (basis : BasisId) (changes : List BoundChange) :
      (createChild id basis changes).Respects (Keeping Session.Tallied) := by
    unfold createChild
    apply (onTree_tallied _).bind
    intro _
    apply (Respects.forM (fun _ => tree_tallied _) _).bind
    intro _
    exact (tree_tallied _).bind fun _ => respects_pure _
  have brood (basis : BasisId) (children : List (List BoundChange)) :
      (createChildren id basis children).Respects (Keeping Session.Tallied) := by
    induction children with
    | nil => exact respects_pure _
    | cons changes rest ih =>
      exact (child basis changes).bind fun _ => ih.bind fun _ => respects_pure _
  unfold branch
  split
  · exact respects_throw _
  · apply (onTree_tallied _).bind
    intro kind
    apply (respects_emitIf _ _).bind
    intro _
    apply (lp_tallied _).bind
    intro basis
    apply (brood basis children).attempt.bind
    intro created
    exact (lp_tallied _).bind fun _ => respects_resume created

theorem reportSolution_tallied (solution : Array Float) (objective : Float) :
    (reportSolution solution objective).Respects (Keeping Session.Tallied) := by
  unfold reportSolution
  apply (beside_tallied _ fun _ _ => rfl).bind
  intro better
  split
  · apply (onTree_tallied _).bind
    intro leaves
    refine (modify_tallied ?_).bind fun _ =>
      respects_get.bind fun _ => (respects_emitIf _ _).bind fun _ => respects_pure _
    exact fun _ => rfl
  · exact respects_pure _

theorem clear_tallied : clear.Respects (Keeping Session.Tallied) := by
  unfold clear
  apply (cuts_tallied (CutRoundCall.perform_tallied .clear)).bind
  intro _
  apply (beside_tallied _ fun _ _ => rfl).bind
  intro _
  apply (onTree_tallied _).bind
  intro _
  apply (beside_tallied _ fun _ _ => rfl).bind
  intro _
  apply (beside_tallied _ fun _ _ => rfl).bind
  intro _
  exact lp_tallied _

end Session

theorem SessionCall.perform_tallied (call : SessionCall) :
    call.perform.Respects (Keeping Session.Tallied) := by
  open Session in
  cases call with
  | start => exact start_tallied.discard
  | nextNode => exact (respects_get.bind fun _ => nextAmong_tallied _).discard
  | installSolution id primal duals objective =>
    exact ((lp_tallied _).bind fun _ => (tree_tallied _).bind fun _ => respects_pure _).discard
  | installFarkas proof => exact (lp_tallied _).discard
  | addCut row forced => exact addCut_tallied row forced
  | separationRound id => exact (separationRound_tallied id).discard
  | addPricedColumn column reducedCost forced =>
    exact addPricedColumn_tallied column reducedCost forced
  | pricingRound mode => exact (pricingRound_tallied mode).discard
  | branch id children => exact (branch_tallied id children).discard
  | finishNode id => exact onTree_tallied _
  | reportSolution solution objective => exact (reportSolution_tallied solution objective).discard
  | updateIncumbent solution objective => exact (beside_tallied _ fun _ _ => rfl).discard
  | reportProgress => exact reportProgress_tallied
  | clear => exact clear_tallied

/-! ### Worlds -/

variable {ι : Type} [DecidableEq ι] [Inhabited ι]

/-- All rounds of a world are tallied. -/
def World.Tallied (w : World ι) : Prop :=
  ∀ p, (w.cutRounds p).Tallied

namespace World

variable {w : World ι}

omit [Inhabited ι] in
/-- One round may be exchanged. -/
theorem Tallied.update (tallied : w.Tallied) (p : ι) {round : SeparationRound}
    (here : round.Tallied) : ∀ q, (Function.update w.cutRounds p round q).Tallied := by
  intro q
  by_cases same : q = p
  · subst same
    rw [Function.update_self]
    exact here
  · rw [Function.update_of_ne same]
    exact tallied q

end World

theorem Call.perform_tallied (call : Call ι) :
    call.perform.Respects (Keeping World.Tallied) := by
  intro w
  cases call with
  | client | tree | rowPool | cutPool => exact reaches_iff.2 fun tallied => tallied
  | cutRound p call =>
    apply ensures_run.2
    apply Reaches.mono (call.perform_tallied _)
    intro t kept tallied
    exact tallied.update p (kept (tallied p))
  | separate p q =>
    apply ensures_run.2
    apply Reaches.mono (CutPool.separate_tallied.discard _)
    intro t kept tallied
    exact tallied.update q (kept (tallied q))
  | applyCuts p q node limit =>
    apply ensures_run.2
    apply discard_reaches.2
    apply Reaches.mono (SeparationRound.apply_empties node limit _)
    intro t emptied tallied
    refine tallied.update p ?_
    rw [emptied]
    exact .empty
  | session call =>
    apply ensures_run.2
    apply Reaches.mono (call.perform_tallied _)
    intro s kept tallied
    exact tallied.update default (kept (tallied default))

variable [Fintype ι] {rule : Rule ι} {w : World ι}

theorem Reachable.tallied (reached : Reachable rule w) : w.Tallied := by
  obtain ⟨start, fresh, run⟩ := reached
  refine run.preserves fresh.kept (fun w w' call owed _ _ step tallied => ?_) fun p => ?_
  · have kept := reaches_iff.1 (call.perform_tallied w)
    rw [step.performed] at kept
    exact kept tallied
  · rw [fresh.cutRounds p]
    exact .empty

end BranchCutPrice
