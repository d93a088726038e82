import BranchCutPrice.Proofs.Rounds
import BranchCutPrice.Proofs.Scores

/-!
What pricing rounds store. A column that is handed in again is passed over. The others are either
forced, and stay in the order in which they came, or wait in the order of their scores.
-/

namespace BranchCutPrice

open BranchCutPrice.Action

/-- A column as it is handed in to a round. -/
structure Quote where
  column : ColumnId
  object : Column
  reducedCost : Float
  forced : Bool

namespace Quote

/-! ### Marks -/

/-- The Euclidean norm of the coefficients. -/
def length (quote : Quote) : Float :=
  (Double.sum (quote.object.coefs.entries.map fun (_, a) => a * a)).sqrt

/-- The negated reduced cost, in units of the length unless there is none. -/
def efficacy (quote : Quote) : Float :=
  if 1e-12 < quote.length then -quote.reducedCost / quote.length else -quote.reducedCost

/-- The part of the objective in the length of the column with its objective. -/
def parallelism (quote : Quote) : Float :=
  let objective := quote.object.objective
  let whole := (objective * objective + quote.length * quote.length).sqrt
  if 1e-12 < whole then objective.abs / whole else 0.0

/-- The record of a column when nothing is admitted yet. -/
def record (settings : PricingSettings) (quote : Quote) : PricedColumn where
  column := quote.column
  reducedCost := quote.reducedCost
  efficacy := quote.efficacy
  parallelism := quote.parallelism
  orthogonality := 1.0
  tooParallel := false
  score := settings.efficacyWeight * quote.efficacy +
    settings.parallelismWeight * quote.parallelism + settings.orthogonalityWeight * 1.0

theorem norm_object (quote : Quote) : quote.object.norm = quote.length := by
  unfold Column.norm SparseVec.norm SparseVec.values length
  rw [List.map_map]
  rfl

/-- A column is stored with the marks that it should have. -/
theorem ofColumn_eq (settings : PricingSettings) (quote : Quote) :
    PricedColumn.ofColumn settings quote.column quote.object quote.reducedCost =
      quote.record settings := by
  have efficacy : (if Double.normFloor < quote.object.norm then
      -quote.reducedCost / quote.object.norm else -quote.reducedCost) = quote.efficacy := by
    rw [norm_object]
    rfl
  have parallelism : quote.object.objectiveParallelism = quote.parallelism := by
    unfold Column.objectiveParallelism
    rw [norm_object]
    rfl
  unfold PricedColumn.ofColumn
  dsimp only
  rw [efficacy, parallelism]
  rfl

theorem rated_record (settings : PricingSettings) (quote : Quote) :
    (quote.record settings).rated settings [] = quote.record settings := by
  simp [PricedColumn.rated, PricedColumn.worth, record]

/-! ### First ones -/

/-- The quotes of columns that came for the first time. -/
def firsts : List Quote → List Quote
  | [] => []
  | quote :: rest => quote :: (firsts rest).filter (·.column ≠ quote.column)

theorem mem_firsts {quotes : List Quote} {column : ColumnId} :
    column ∈ (firsts quotes).map Quote.column ↔ column ∈ quotes.map Quote.column := by
  induction quotes with
  | nil => rfl
  | cons quote rest ih =>
    rw [firsts, List.map_cons, List.map_cons, List.mem_cons, List.mem_cons, ← ih]
    by_cases same : column = quote.column
    · simp [same]
    · simp only [same, false_or, List.mem_map, List.mem_filter, decide_eq_true_eq]
      constructor
      · rintro ⟨other, ⟨member, _⟩, named⟩
        exact ⟨other, member, named⟩
      · rintro ⟨other, member, rfl⟩
        exact ⟨other, ⟨member, same⟩, rfl⟩

theorem firsts_append (quotes : List Quote) (quote : Quote) : firsts (quotes ++ [quote]) =
    if quote.column ∈ quotes.map Quote.column then firsts quotes else firsts quotes ++ [quote] := by
  induction quotes with
  | nil => rfl
  | cons first rest ih =>
    rw [List.cons_append, firsts, firsts, ih, List.map_cons]
    by_cases known : quote.column ∈ rest.map Quote.column
    · rw [if_pos known, if_pos (List.mem_cons_of_mem _ known)]
    · rw [if_neg known, List.filter_append]
      by_cases same : quote.column = first.column
      · rw [if_pos (same ▸ List.mem_cons_self), List.filter_cons_of_neg (by simpa using same),
          List.filter_nil, List.append_nil]
      · rw [if_neg (by simpa [same] using known), List.filter_cons_of_pos (by simpa using same)]
        rfl

theorem firsts_nodup (quotes : List Quote) : ((firsts quotes).map Quote.column).Nodup := by
  induction quotes with
  | nil => exact .nil
  | cons quote rest ih =>
    rw [firsts, List.map_cons, List.nodup_cons]
    refine ⟨fun member => ?_, ih.sublist (List.filter_sublist.map _)⟩
    obtain ⟨other, kept, same⟩ := List.mem_map.1 member
    simpa [same] using List.of_mem_filter kept

end Quote

namespace PricingRound

variable {round : PricingRound} {quotes : List Quote}

/-- The forced columns are stored in order and the others by their scores, and it was counted
how many are efficacious. -/
structure Stocks (quotes : List Quote) (round : PricingRound) : Prop where
  forced : round.forced =
    ((Quote.firsts quotes).filter (·.forced)).map (Quote.record round.settings)
  waiting : round.waiting.Perm
    (((Quote.firsts quotes).filter (!·.forced)).map (Quote.record round.settings))
  selected : round.selected = []
  efficacious : round.efficacious = (Quote.firsts quotes).countP
    fun quote => quote.reducedCost < -round.settings.tolerance
  ordered : PricedColumn.Ordered round.waiting

theorem Stocks.empty (settings : PricingSettings) : Stocks [] (.empty settings) :=
  ⟨rfl, .rfl, rfl, rfl, fun _ => .nil⟩

/-- A column waits behind those that score at least as high, and ahead of the others. -/
theorem insert_ordered {waiting : List PricedColumn} (ordered : PricedColumn.Ordered waiting)
    (priced : PricedColumn) : PricedColumn.Ordered (Ranking.insertAt waiting
      (Ranking.partitionPoint (fun other => priced.score ≤ other.score) waiting) priced) := by
  intro defined
  have placed := Ranking.insertAt_perm waiting
    (Ranking.partitionPoint (fun other => priced.score ≤ other.score) waiting) priced
  obtain ⟨here, others⟩ := List.forall_mem_cons.1 fun other member =>
    defined other (placed.mem_iff.2 member)
  have sorted := ordered others
  have leads : waiting.Pairwise fun a b => priced.score ≤ b.score → priced.score ≤ a.score :=
    sorted.imp fun below reaches => Double.le_trans reaches below
  obtain ⟨front, rest, rfl, ahead, behind⟩ := Ranking.exists_leading leads
  -- bisection finds the place between the two parts
  have point : Ranking.partitionPoint (fun other => priced.score ≤ other.score) (front ++ rest) =
      front.length :=
    Ranking.partitionPoint_append (fun a member => decide_eq_true (ahead a member))
      fun a member => decide_eq_false (behind a member)
  rw [point, Ranking.insertAt, List.take_left, List.drop_left]
  obtain ⟨first, later, across⟩ := List.pairwise_append.1 sorted
  refine List.pairwise_append.2 ⟨first, List.pairwise_cons.2 ⟨fun worse member => ?_, later⟩, ?_⟩
  · have known := others worse (List.mem_append_right _ member)
    exact Double.le_of_lt (Double.lt_of_not_le here known (behind worse member))
  · intro better member other member'
    obtain rfl | old := List.mem_cons.1 member'
    · exact ahead better member
    · exact across better member other old

namespace Stocks

/-- The stored columns are those that were handed in. -/
theorem columns_perm (stocks : Stocks quotes round) :
    round.columns.Perm ((Quote.firsts quotes).map Quote.column) := by
  have split := List.filter_append_perm (·.forced) (Quote.firsts quotes)
  have stored : round.stored.Perm
      ((Quote.firsts quotes).map (Quote.record round.settings)) := by
    unfold stored
    rw [stocks.selected, List.append_nil, stocks.forced]
    refine (stocks.waiting.append_left _).trans ?_
    rw [← List.map_append]
    exact split.map _
  have columns := stored.map PricedColumn.column
  rw [List.map_map] at columns
  exact columns

theorem mem_columns (stocks : Stocks quotes round) {column : ColumnId} :
    column ∈ round.columns ↔ column ∈ quotes.map Quote.column :=
  stocks.columns_perm.mem_iff.trans Quote.mem_firsts

theorem nodup_columns (stocks : Stocks quotes round) : round.columns.Nodup :=
  stocks.columns_perm.nodup_iff.2 (Quote.firsts_nodup quotes)

/-- The waiting columns have the marks that they have beside no other ones. -/
theorem rated_waiting (stocks : Stocks quotes round) :
    ∀ priced ∈ round.waiting, priced.rated round.settings [] = priced := by
  intro priced member
  obtain ⟨quote, _, rfl⟩ := List.mem_map.1 (stocks.waiting.mem_iff.1 member)
  exact quote.rated_record round.settings

/-- A column that is stored already is passed over. -/
theorem again (stocks : Stocks quotes round) {quote : Quote}
    (known : quote.column ∈ round.columns) : Stocks (quotes ++ [quote]) round := by
  have same : Quote.firsts (quotes ++ [quote]) = Quote.firsts quotes := by
    rw [Quote.firsts_append, if_pos (stocks.mem_columns.1 known)]
  refine ⟨?_, ?_, stocks.selected, ?_, stocks.ordered⟩
  · rw [same, stocks.forced]
  · rw [same]
    exact stocks.waiting
  · rw [same, stocks.efficacious]

theorem place (stocks : Stocks quotes round) {quote : Quote}
    (unknown : quote.column ∉ round.columns) :
    Stocks (quotes ++ [quote])
      (round.place (quote.record round.settings) quote.forced) := by
  have new : Quote.firsts (quotes ++ [quote]) = Quote.firsts quotes ++ [quote] := by
    rw [Quote.firsts_append, if_neg fun known => unknown (stocks.mem_columns.2 known)]
  have efficacious : (if quote.reducedCost < -round.settings.tolerance
        then round.efficacious + 1 else round.efficacious) =
      (Quote.firsts (quotes ++ [quote])).countP
        fun quote => quote.reducedCost < -round.settings.tolerance := by
    rw [new, List.countP_append, List.countP_singleton, stocks.efficacious]
    split <;> simp_all
  unfold PricingRound.place
  cases forced : quote.forced with
  | true =>
    refine ⟨?_, ?_, stocks.selected, efficacious, stocks.ordered⟩
    · rw [new, List.filter_append, List.map_append, List.filter_cons_of_pos forced]
      exact congrArg (· ++ [quote.record round.settings]) stocks.forced
    · rw [new, List.filter_append, List.filter_cons_of_neg (by simp [forced]), List.filter_nil,
        List.append_nil]
      exact stocks.waiting
  | false =>
    refine ⟨?_, ?_, stocks.selected, efficacious, insert_ordered stocks.ordered _⟩
    · rw [new, List.filter_append, List.filter_cons_of_neg (by simp [forced]), List.filter_nil,
        List.append_nil]
      exact stocks.forced
    · rw [new, List.filter_append, List.map_append, List.filter_cons_of_pos (by simp [forced])]
      refine (Ranking.insertAt_perm _ _ _).trans ?_
      exact (stocks.waiting.cons _).trans (List.perm_append_singleton _ _).symm

end Stocks

/-- Whatever is stored, a column that is registered can be handed in. -/
theorem add_stocks {s : Linked PricingRound} (stocks : Stocks quotes s.own) {quote : Quote}
    (registered : s.lp.columns.get quote.column = .ok quote.object) :
    (add quote.column quote.reducedCost quote.forced).Completes s fun _ s' =>
      Stocks (quotes ++ [quote]) s'.own := by
  unfold add
  rw [Completes, ensures_bind, ensures_get]
  split
  · rename_i known
    exact stocks.again (contains_iff.1 known)
  · rename_i unknown
    have live := Registry.contains_iff_get.2 ⟨quote.object, registered⟩
    apply Completes.of_read (a := quote.object)
    · exact registered
    · rw [Completes, ensures_bind, ensures_onLp]
      apply (Relaxation.captureColumn_live live).mono
      intro _ _ _
      rw [ensures_onOwn, ensures_modify, quote.ofColumn_eq s.own.settings]
      exact stocks.place (unknown ∘ contains_iff.2)

end PricingRound

end BranchCutPrice
