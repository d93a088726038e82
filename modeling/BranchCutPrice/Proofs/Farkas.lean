import BranchCutPrice.Proofs.Columns
import BranchCutPrice.Proofs.Dating

/-!
What a Farkas round loads. It forces every pooled column that refutes the proof of
infeasibility, so that the column is loaded whatever the limit of the round; but a column that
was handed in before without being forced stays as it is and is loaded only if it is among the
best.
-/

namespace BranchCutPrice

open BranchCutPrice.Action

/-! ### Finding columns -/

/-- A pooled column that is to be checked and will be found to improve the relaxation. -/
structure ColumnPool.Improves (s : Linked ColumnPool) (mode : PricingMode) (column : ColumnId) :
    Prop where
  pooled : ∃ entry ∈ s.own.pool.entries, entry.handle = column ∧
    entry.processed ≠ some s.lp.solutions
  unloaded : s.lp.isColumnLoaded column = false
  improving : ∃ item, s.lp.columns.get column = .ok item ∧
    value s.lp mode item < -s.own.tolerance

instance (s : Linked ColumnPool) (mode : PricingMode) (column : ColumnId) :
    Decidable (ColumnPool.Improves s mode column) :=
  decidable_of_iff
    ((∃ entry ∈ s.own.pool.entries, entry.handle = column ∧
        entry.processed ≠ some s.lp.solutions) ∧ s.lp.isColumnLoaded column = false ∧
      (s.lp.columns.get column).toOption.any
        (fun item => decide (ColumnPool.value s.lp mode item < -s.own.tolerance)) = true)
    ⟨fun ⟨pooled, unloaded, low⟩ => ⟨pooled, unloaded, by
        obtain ⟨item, registered, low⟩ := (Option.any_eq_true _ _).1 low
        refine ⟨item, ?_, of_decide_eq_true low⟩
        cases got : s.lp.columns.get column with
        | error e => simp [got, Except.toOption] at registered
        | ok other => simpa [got, Except.toOption] using registered⟩,
      fun ⟨pooled, unloaded, item, registered, low⟩ => ⟨pooled, unloaded, by
        simp [registered, Except.toOption, low]⟩⟩

theorem ColumnPool.scan_finds {s : Linked ColumnPool} {owed : Holdings} (settled : Settled s owed)
    (consistent : s.own.pool.Consistent) (mode : PricingMode) :
    (scan mode).Yields s fun survey _ =>
      ∀ column, Improves s mode column → ∃ value, (column, value) ∈ survey.useful := by
  have balanced : (stockPart.get s).Balanced (owed.columns + s.lp.loadedColumns) :=
    columnStock_balanced (s := ⟨s.own.pool, s.lp⟩) settled
  unfold scan
  rw [Yields, ensures_bind, ensures_get, ensures_run]
  apply (Stock.scan_surveys balanced consistent s.lp.solutions _).yields
  intro survey _ surveys column improves
  obtain ⟨entry, member, rfl, fresh⟩ := improves.pooled
  obtain ⟨item, registered, low⟩ := improves.improving
  obtain ⟨verdict, judged⟩ := surveys.judged entry member fresh
  obtain ⟨_, item', registered', same⟩ := surveys.given _ judged
  cases registered.symm.trans registered'
  have useful : verdict = .useful (value s.lp mode item) := by
    change verdict = check s.lp mode s.own.tolerance entry.handle item at same
    simpa [check, improves.unloaded, low] using same
  rw [useful] at judged
  exact ⟨_, mem_usefulScores.2 judged⟩

/-! ### Storing forced columns -/

namespace PricingRound

/-- The columns stored without being forced. -/
def optional (round : PricingRound) : List PricedColumn :=
  round.waiting ++ round.selected

theorem mem_columns {round : PricingRound} {column : ColumnId} : column ∈ round.columns ↔
    (∃ priced ∈ round.forced, priced.column = column) ∨
      ∃ priced ∈ round.optional, priced.column = column := by
  unfold columns stored optional
  rw [List.append_assoc, List.map_append, List.mem_append, List.mem_map, List.mem_map]

variable {s : Linked PricingRound} {owed : Holdings}

/-- A forced column joins the others, unless it is stored already. -/
theorem add_forces (column : ColumnId) (reducedCost : Float) :
    (add column reducedCost true).Yields s fun _ s' => s'.own.optional = s.own.optional ∧
      ∀ other, other ∈ s'.own.columns ↔ other = column ∨ other ∈ s.own.columns := by
  unfold add
  rw [Yields, ensures_bind, ensures_get]
  split
  · rename_i stored
    refine ⟨rfl, fun other => ⟨.inr, fun member => ?_⟩⟩
    obtain rfl | member := member
    · exact contains_iff.1 stored
    · exact member
  · rw [ensures_bind]
    apply yields_read.2
    intro item _
    rw [ensures_bind, ensures_onLp]
    apply yields_of_all
    intro _ lp
    rw [ensures_onOwn, ensures_modify]
    refine ⟨rfl, fun other => ?_⟩
    have placed : ((s.own.place (.ofColumn s.own.settings column item reducedCost) true).columns :
        Multiset ColumnId) = column ::ₘ (s.own.columns : Multiset ColumnId) :=
      columns_place s.own (.ofColumn s.own.settings column item reducedCost) true
    rw [← Multiset.mem_coe, placed, Multiset.mem_cons, Multiset.mem_coe]

end PricingRound

/-! ### Rounds -/

/-- A Farkas scan stores all that it finds, and forces what was not stored before. -/
theorem ColumnPool.price_forces {s : Linked (ColumnPool × PricingRound)} {owed : Holdings}
    (settled : Settled s owed) (consistent : s.own.1.pool.Consistent) :
    (price .farkas).Yields s fun _ s' => s'.own.2.optional = s.own.2.optional ∧
      ∀ column, Improves ⟨s.own.1, s.lp⟩ .farkas column → column ∈ s'.own.2.columns := by
  obtain ⟨_, left, _⟩ := onLeft_frames.enter settled
  unfold price onLeft
  rw [Yields, ensures_bind, ensures_run]
  apply (scan_finds left consistent .farkas).yields
  intro survey s₁ finds
  rw [ensures_bind]
  let keeps (s' : Linked (ColumnPool × PricingRound)) : Prop :=
    s'.own.2.optional = s.own.2.optional
  have start : keeps ⟨(s₁.own, s.own.2), s₁.lp⟩ := rfl
  have each (found : ColumnId × Float) (s' : Linked (ColumnPool × PricingRound))
      (optional : keeps s') :
      (onRight (PricingRound.add found.1 found.2 true) :
        Action (Linked (ColumnPool × PricingRound)) Unit).Yields s' fun _ s'' =>
          keeps s'' ∧ found.1 ∈ s''.own.2.columns ∧
            ∀ other : ColumnId × Float,
              other.1 ∈ s'.own.2.columns → other.1 ∈ s''.own.2.columns := by
    unfold onRight
    rw [Yields, ensures_run]
    apply (PricingRound.add_forces found.1 found.2).yields
    intro _ t added
    obtain ⟨same, columns⟩ := added
    exact ⟨same.trans optional, (columns _).2 (.inl rfl), fun _ there => (columns _).2 (.inr there)⟩
  apply (yields_forM each survey.useful start).yields
  intro _ s' done
  obtain ⟨optional, stored⟩ := done
  refine ⟨optional, fun column improves => ?_⟩
  obtain ⟨value, member⟩ := finds column improves
  exact stored _ member

theorem Session.pricingRound_forces {s : Session} {owed : Holdings} (settled : Settled s owed)
    (dated : s.Dated) : (pricingRound .farkas).Yields s fun _ s' =>
      ∀ column, ColumnPool.Improves ⟨s.columnPool, s.lp⟩ .farkas column →
        (∀ priced ∈ s.columns.optional, priced.column ≠ column) →
          column ∈ s'.lp.loadedColumns := by
  have priced := pricing_frames.ensures settled fun _ inside =>
    ((ColumnPool.price_reaches inside .farkas).and
      (ColumnPool.price_forces inside dated.columnPool.consistent)).imp
        (fun _ _ done => ⟨done.1.1, done.2⟩) fun _ _ refused => ⟨refused.1.1, refused.2⟩
  unfold pricingRound
  rw [Yields, ensures_bind]
  apply priced.yields
  intro _ s₁ done
  obtain ⟨settled₁, t, rfl, optional, stores⟩ := done
  obtain ⟨_, inside, _⟩ := columns_frames.enter settled₁
  rw [ensures_bind, ensures_get, ensures_bind, ensures_run]
  apply (PricingRound.selectBest_closes inside _).yields
  intro result t' closed
  obtain ⟨_, loads⟩ := closed
  rw [ensures_bind, ensures_modify, ensures_pure]
  intro column improves unstored
  obtain ⟨priced, member, rfl⟩ | ⟨priced, member, same⟩ :=
    PricingRound.mem_columns.1 (stores column improves)
  · exact loads priced member
  · have there : priced ∈ s.columns.optional := optional ▸ member
    exact absurd same (unstored priced there)

variable {ι : Type} [DecidableEq ι] [Inhabited ι] [Fintype ι] {rule : Rule ι} {w : World ι}

/-- A session that admits one column a round. -/
def World.narrow : World Unit :=
  { World.initial with
    columns := .empty { maxColumns := 1 }
    settings := { pricing := { maxColumns := 1 } } }

theorem World.narrow_fresh : World.narrow.Fresh :=
  { World.initial_fresh with session := ⟨{ pricing := { maxColumns := 1 } }, rfl⟩ }

/-- Two columns are handed in without being forced. The first one refutes the proof, the second
one has the lower reduced cost. -/
def offering : List (Call Unit) :=
  [.client (.createColumn ⟨"a", 0, 0, 1, ⟨2, [(0, 1)]⟩, false⟩),
    .client (.createColumn ⟨"b", 0, 0, 1, ⟨2, [(1, 1)]⟩, false⟩),
    .session (.installFarkas #[1, 0]), .session (.addPricedColumn ⟨0, 0⟩ (-1) false),
    .session (.addPricedColumn ⟨1, 0⟩ (-5) false)]

/-- The round ends without the first column, and another proof is installed. -/
def renewing : List (Call Unit) :=
  [.session (.pricingRound .reducedCost), .session (.installFarkas #[1, 0])]

/-- Both columns are handed in. -/
def World.offered : World Unit :=
  World.narrow.after offering

/-- The first column is pooled only. -/
def World.renewed : World Unit :=
  World.narrow.after (offering ++ renewing)

end BranchCutPrice
