import BranchCutPrice.Pricing.Round
import BranchCutPrice.Proofs.Ranking
import BranchCutPrice.Proofs.TotalOrder

/-!
What the columns of a pricing round are worth. The score of a waiting column is kept up to date as
other columns are admitted, and it is at any time what it would be if it were worked out anew from
all columns that were admitted. Sorting lists columns by their scores.
-/

namespace BranchCutPrice

/-! ### Scores -/

namespace PricedColumn

/-- The score of a column with these orthogonalities to the admitted ones. -/
def worth (settings : PricingSettings) (orthogonalities : List Float) (priced : PricedColumn) :
    Float :=
  let total := settings.efficacyWeight * priced.efficacy +
    settings.parallelismWeight * priced.parallelism +
    settings.orthogonalityWeight * orthogonalities.foldl Double.least 1.0
  if orthogonalities.any (· < settings.minOrthogonality) then total - settings.parallelPenalty
  else total

/-- The marks of a column, worked out from its orthogonalities to the admitted ones. -/
def rated (settings : PricingSettings) (orthogonalities : List Float) (priced : PricedColumn) :
    PricedColumn :=
  { priced with
    orthogonality := orthogonalities.foldl Double.least 1.0
    tooParallel := orthogonalities.any (· < settings.minOrthogonality)
    score := priced.worth settings orthogonalities }

/-- One more admitted column is accounted for as if it had been there from the start. -/
theorem beside_rated (settings : PricingSettings) (orthogonalities : List Float)
    (orthogonality : Float) (priced : PricedColumn) :
    (priced.rated settings orthogonalities).beside settings orthogonality =
      priced.rated settings (orthogonalities ++ [orthogonality]) := by
  simp [rated, worth, beside, scored, List.foldl_append, List.any_append]

/-- The column beside the admitted ones. -/
def current (objects : ColumnId → Column) (settings : PricingSettings) (admitted : List ColumnId)
    (priced : PricedColumn) : PricedColumn :=
  priced.rated settings
    (admitted.map fun other => (objects other).orthogonality (objects priced.column))

theorem current_beside (objects : ColumnId → Column) (settings : PricingSettings)
    (admitted : List ColumnId) (handle : ColumnId) (priced : PricedColumn) :
    (priced.current objects settings admitted).beside settings
        ((objects handle).orthogonality (objects priced.column)) =
      priced.current objects settings (admitted ++ [handle]) := by
  unfold current
  rw [beside_rated, List.map_append]
  rfl

/-- The marks of a column beside the admitted ones: the least of its orthogonalities and one, the
penalty if one of them is too small, and the weighted sum of all marks. -/
structure Marked (objects : ColumnId → Column) (settings : PricingSettings)
    (admitted : List ColumnId) (priced marked : PricedColumn) : Prop where
  record : marked.column = priced.column ∧ marked.reducedCost = priced.reducedCost ∧
    marked.efficacy = priced.efficacy ∧ marked.parallelism = priced.parallelism
  atMost : marked.orthogonality ≤ 1.0
  least : ∀ other ∈ admitted,
    marked.orthogonality ≤ (objects other).orthogonality (objects priced.column)
  attained : marked.orthogonality = 1.0 ∨ ∃ other ∈ admitted,
    marked.orthogonality = (objects other).orthogonality (objects priced.column)
  tooParallel : marked.tooParallel = true ↔ ∃ other ∈ admitted,
    (objects other).orthogonality (objects priced.column) < settings.minOrthogonality
  score : marked.score =
    let total := settings.efficacyWeight * marked.efficacy +
      settings.parallelismWeight * marked.parallelism +
      settings.orthogonalityWeight * marked.orthogonality
    if marked.tooParallel then total - settings.parallelPenalty else total

theorem current_marked {objects : ColumnId → Column} {admitted : List ColumnId}
    {priced : PricedColumn} (defined : ∀ other ∈ admitted,
      ((objects other).orthogonality (objects priced.column)).isNaN = false)
    (settings : PricingSettings) :
    Marked objects settings admitted priced (priced.current objects settings admitted) := by
  let orthogonality (other : ColumnId) : Float :=
    (objects other).orthogonality (objects priced.column)
  have defined' : ∀ value ∈ admitted.map orthogonality, value.isNaN = false := by
    intro value member
    obtain ⟨other, there, rfl⟩ := List.mem_map.1 member
    exact defined other there
  obtain ⟨atMost, least, attained⟩ :=
    Double.foldl_least defined' (show (1.0 : Float).isNaN = false by decide +kernel)
  refine ⟨⟨rfl, rfl, rfl, rfl⟩, atMost, fun other member => ?_, ?_, ?_, rfl⟩
  · exact least _ (List.mem_map_of_mem member)
  · refine attained.imp id fun member => ?_
    obtain ⟨other, there, same⟩ := List.mem_map.1 member
    exact ⟨other, there, same.symm⟩
  · change (admitted.map orthogonality).any _ = true ↔ _
    rw [List.any_map, List.any_eq_true]
    simp only [Function.comp_apply, decide_eq_true_eq, orthogonality]

/-! ### The order of scores -/

/-- Columns are listed by their scores, the best one first, unless a score is undefined. -/
def Ordered (listed : List PricedColumn) : Prop :=
  (∀ priced ∈ listed, priced.score.isNaN = false) →
    listed.Pairwise fun better worse => worse.score ≤ better.score

theorem Ordered.tail {priced : PricedColumn} {rest : List PricedColumn}
    (ordered : Ordered (priced :: rest)) (defined : priced.score.isNaN = false) : Ordered rest :=
  fun others => (List.pairwise_cons.1 (ordered (List.forall_mem_cons.2 ⟨defined, others⟩))).2

theorem before_weak : Ranking.Weak before :=
  .of_rank fun priced : PricedColumn => Double.rank (.ofFloat priced.score)

theorem sort_before (listed : List PricedColumn) : Ordered (Ranking.sort before listed) := by
  intro defined
  refine (Ranking.sort_ordered before_weak listed).imp_of_mem ?_
  intro better worse member member' follows
  -- the total order that columns are sorted by agrees with the scores where these are defined
  apply Double.le_of_rank_le (defined worse member') (defined better member)
  simpa [before] using follows

end PricedColumn

end BranchCutPrice
