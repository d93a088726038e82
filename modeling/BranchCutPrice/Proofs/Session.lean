import BranchCutPrice.Proofs.Cuts
import BranchCutPrice.Proofs.Stranding
import BranchCutPrice.Session.Rounds

/-!
The parts of a session and what they hold. Operations on a part keep the session settled;
those beside the tree leave the desk as it is, but for a pricing round that may lose
columns.
-/

namespace BranchCutPrice

instance : Ledger Session where
  lp s := s.lp
  held s := Holder.holdings s.tree + Holder.holdings s.cutPool + Holder.holdings s.columnPool +
    Holder.holdings s.cuts + Holder.holdings s.columns

namespace Session

open BranchCutPrice.Action Relaxation

/-- The tree of a session with the rows that are loaded beside it. -/
def desk (s : Session) : Desk :=
  s.tree.desk s.lp.loadedRows

/-! ### Frames -/

theorem tree_frames : (linked treePart).Frames where
  lp_get _ := rfl
  lp_set _ _ := rfl
  rest s := by
    refine ⟨Holder.holdings s.cutPool + Holder.holdings s.columnPool + Holder.holdings s.cuts +
      Holder.holdings s.columns, ?_, fun t => ?_⟩
    · dsimp only [Ledger.held, linked, treePart]
      abel
    · dsimp only [Ledger.held, linked, treePart]
      abel

theorem cutPool_frames : (linked cutPoolPart).Frames where
  lp_get _ := rfl
  lp_set _ _ := rfl
  rest s := by
    refine ⟨Holder.holdings s.tree + Holder.holdings s.columnPool + Holder.holdings s.cuts +
      Holder.holdings s.columns, ?_, fun t => ?_⟩
    · dsimp only [Ledger.held, linked, cutPoolPart]
      abel
    · dsimp only [Ledger.held, linked, cutPoolPart]
      abel

theorem columnPool_frames : (linked columnPoolPart).Frames where
  lp_get _ := rfl
  lp_set _ _ := rfl
  rest s := by
    refine ⟨Holder.holdings s.tree + Holder.holdings s.cutPool + Holder.holdings s.cuts +
      Holder.holdings s.columns, ?_, fun t => ?_⟩
    · dsimp only [Ledger.held, linked, columnPoolPart]
      abel
    · dsimp only [Ledger.held, linked, columnPoolPart]
      abel

theorem cuts_frames : (linked cutsPart).Frames where
  lp_get _ := rfl
  lp_set _ _ := rfl
  rest s := by
    refine ⟨Holder.holdings s.tree + Holder.holdings s.cutPool + Holder.holdings s.columnPool +
      Holder.holdings s.columns, ?_, fun t => ?_⟩
    · dsimp only [Ledger.held, linked, cutsPart]
      abel
    · dsimp only [Ledger.held, linked, cutsPart]
      abel

theorem columns_frames : (linked columnsPart).Frames where
  lp_get _ := rfl
  lp_set _ _ := rfl
  rest s := by
    refine ⟨Holder.holdings s.tree + Holder.holdings s.cutPool + Holder.holdings s.columnPool +
      Holder.holdings s.cuts, rfl, fun _ => rfl⟩

theorem separation_frames : (linked (cutPoolPart.pair cutsPart)).Frames where
  lp_get _ := rfl
  lp_set _ _ := rfl
  rest s := by
    refine ⟨Holder.holdings s.tree + Holder.holdings s.columnPool +
      Holder.holdings s.columns, ?_, fun t => ?_⟩
    · dsimp only [Ledger.held, Holder.holdings, linked, Part.pair, cutPoolPart, cutsPart]
      abel
    · dsimp only [Ledger.held, Holder.holdings, linked, Part.pair, cutPoolPart, cutsPart]
      abel

theorem application_frames : (linked (cutsPart.pair treePart)).Frames where
  lp_get _ := rfl
  lp_set _ _ := rfl
  rest s := by
    refine ⟨Holder.holdings s.cutPool + Holder.holdings s.columnPool +
      Holder.holdings s.columns, ?_, fun t => ?_⟩
    · dsimp only [Ledger.held, Holder.holdings, linked, Part.pair, cutsPart, treePart]
      abel
    · dsimp only [Ledger.held, Holder.holdings, linked, Part.pair, cutsPart, treePart]
      abel

theorem pricing_frames : (linked (columnPoolPart.pair columnsPart)).Frames where
  lp_get _ := rfl
  lp_set _ _ := rfl
  rest s := by
    refine ⟨Holder.holdings s.tree + Holder.holdings s.cutPool +
      Holder.holdings s.cuts, ?_, fun t => ?_⟩
    · dsimp only [Ledger.held, Holder.holdings, linked, Part.pair, columnPoolPart, columnsPart]
      abel
    · dsimp only [Ledger.held, Holder.holdings, linked, Part.pair, columnPoolPart, columnsPart]
      abel

variable {s : Session} {owed : Holdings} {α τ : Type}

theorem onTree_ensures (settled : Settled s owed) {act : Action (Linked Tree) α}
    {done : α → Linked Tree → Prop} {refused : Error → Linked Tree → Prop}
    (keeps : ∀ owed, Settled (Linked.mk s.tree s.lp) owed →
      act.Ensures (Linked.mk s.tree s.lp) (fun a t => Settled t owed ∧ done a t)
        (fun e t => Settled t owed ∧ refused e t)) :
    (onTree act).Ensures s
      (fun a s' => Settled s' owed ∧ done a ⟨s'.tree, s'.lp⟩)
      (fun e s' => Settled s' owed ∧ refused e ⟨s'.tree, s'.lp⟩) := by
  apply (tree_frames.ensures settled keeps).imp
  · intro a s' reached
    obtain ⟨settled', t, rfl, did⟩ := reached
    exact ⟨settled', did⟩
  · intro e s' reached
    obtain ⟨settled', t, rfl, did⟩ := reached
    exact ⟨settled', did⟩

section Beside

variable [Holder τ] {part : Part Session τ} {act : Action (Linked τ) α}

/-- An operation on a part beside the tree. -/
theorem beside_reaches (frames : (linked part).Frames)
    (tree : ∀ s t, (part.set s t).tree = s.tree) (settled : Settled s owed)
    (keeps : ∀ owed, Settled (Linked.mk (part.get s) s.lp) owed →
      act.Reaches (Linked.mk (part.get s) s.lp) fun t => Settled t owed ∧ Still s.lp t.lp) :
    ((linked part).run act).Reaches s fun s' => Settled s' owed ∧ s'.desk = s.desk := by
  apply (frames.ensures settled keeps).imp
  all_goals
    intro _ s' reached
    obtain ⟨settled', t, rfl, still⟩ := reached
    refine ⟨settled', ?_⟩
    change (part.set s t.own).tree.desk t.lp.loadedRows = s.tree.desk s.lp.loadedRows
    rw [tree, still.loadedRows]

end Beside

/-! ### Rounds -/

theorem pooledCut_reaches (settled : Settled s owed) (row : RowId) :
    (pooledCut row).Reaches s fun s' => Settled s' owed ∧ s'.desk = s.desk := by
  unfold Reaches pooledCut
  rw [ensures_bind]
  apply ensures_read.2
  constructor
  · intro item _
    split
    · exact ⟨settled, rfl⟩
    · rw [ensures_bind]
      have added := beside_reaches cutPool_frames (fun _ _ => rfl) settled
        fun _ inside => CutPool.add_reaches inside row
      apply added.imp
      · intro _ _ done
        exact done
      · intro _ _ kept
        exact kept
  · intro _ _
    exact ⟨settled, rfl⟩

theorem addCut_reaches (settled : Settled s owed) (row : RowId) (forced : Bool) :
    (addCut row forced).Reaches s fun s' => Settled s' owed ∧ s'.desk = s.desk := by
  unfold Reaches addCut
  rw [ensures_bind]
  apply (pooledCut_reaches settled row).imp
  · intro stored s' pooled
    obtain ⟨settled', desk⟩ := pooled
    rw [ensures_bind]
    apply ensures_read.2
    constructor
    · intro item _
      rw [ensures_bind, ensures_get]
      have added := beside_reaches cuts_frames (fun _ _ => rfl) settled'
        fun _ inside => SeparationRound.add_reaches inside stored
          (.ofFloat (item.efficacy s'.lp.primal)) forced
      rw [← desk]
      exact added
    · intro _ _
      exact ⟨settled', desk⟩
  · intro _ _ kept
    exact kept

theorem separationRound_reaches (settled : Settled s owed) (id : NodeId) :
    (separationRound id).Reaches s fun s' =>
      Settled s' owed ∧ Moves {.plain} s.desk s'.desk := by
  unfold Reaches separationRound
  rw [ensures_bind]
  have scanned := beside_reaches separation_frames (fun _ _ => rfl) settled
    fun _ inside => CutPool.separate_reaches inside
  apply scanned.imp
  · intro finding s' done
    obtain ⟨settled', desk⟩ := done
    rw [ensures_bind, ensures_get, ← desk]
    split
    · exact ⟨settled', .rfl⟩
    · rw [ensures_bind]
      apply (application_frames.ensures settled' fun _ inside =>
        SeparationRound.apply_reaches inside id s'.settings.maxCutsPerRound).imp
      · intro added s'' applied
        obtain ⟨settled'', t, rfl, moves⟩ := applied
        rw [ensures_bind, ensures_modify]
        exact ⟨settled'', moves⟩
      · intro _ s'' applied
        obtain ⟨settled'', t, rfl, moves⟩ := applied
        exact ⟨settled'', moves⟩
  · intro _ _ kept
    rw [kept.2]
    exact ⟨kept.1, .rfl⟩

theorem pooledColumn_reaches (settled : Settled s owed) (column : ColumnId) :
    (pooledColumn column).Reaches s fun s' => Settled s' owed ∧ s'.desk = s.desk := by
  unfold Reaches pooledColumn
  rw [ensures_bind]
  apply ensures_read.2
  constructor
  · intro item _
    split
    · exact ⟨settled, rfl⟩
    · rw [ensures_bind]
      have added := beside_reaches columnPool_frames (fun _ _ => rfl) settled
        fun _ inside => ColumnPool.add_reaches inside column
      apply added.imp
      · intro _ _ done
        exact done
      · intro _ _ kept
        exact kept
  · intro _ _
    exact ⟨settled, rfl⟩

theorem addPricedColumn_reaches (settled : Settled s owed) (column : ColumnId)
    (reducedCost : Float) (forced : Bool) :
    (addPricedColumn column reducedCost forced).Reaches s fun s' =>
      Settled s' owed ∧ s'.desk = s.desk := by
  unfold Reaches addPricedColumn
  rw [ensures_bind]
  apply (pooledColumn_reaches settled column).imp
  · intro stored s' pooled
    obtain ⟨settled', desk⟩ := pooled
    have added := beside_reaches columns_frames (fun _ _ => rfl) settled'
      fun _ inside => PricingRound.add_reaches inside stored reducedCost forced
    rw [← desk]
    exact added
  · intro _ _ kept
    exact kept

/-- The columns that the end of a pricing round drops, none if the pool cannot be scanned. -/
def dropped (mode : PricingMode) (s : Session) : Multiset ColumnId :=
  let priced := (linked (columnPoolPart.pair columnsPart)).run (ColumnPool.price mode) s
  match priced.result with
  | .ok _ =>
      PricingRound.dropped priced.state.settings.pricing.maxColumns
        ⟨priced.state.columns, priced.state.lp⟩
  | .error _ => 0

theorem pricingRound_reaches (settled : Settled s owed) (mode : PricingMode) :
    (pricingRound mode).Reaches s fun s' =>
      Settled s' (owed + .ofColumns (s.dropped mode)) ∧ s'.desk = s.desk := by
  have scanned := beside_reaches pricing_frames (fun _ _ => rfl) settled
    fun _ inside => ColumnPool.price_reaches inside mode
  unfold Reaches pricingRound
  rw [ensures_bind]
  apply (scanned.and (ensures_ran _ s)).imp
  · intro finding s' done
    obtain ⟨⟨settled', desk⟩, ended, state⟩ := done
    have drops : s.dropped mode =
        PricingRound.dropped s'.settings.pricing.maxColumns ⟨s'.columns, s'.lp⟩ := by
      unfold dropped
      simp only [ended, state]
    have selected (owed : Holdings) (inside : Settled (Linked.mk s'.columns s'.lp) owed) :
        (PricingRound.selectBest s'.settings.pricing.maxColumns).Reaches ⟨s'.columns, s'.lp⟩
          fun t => Settled t (owed + .ofColumns (s.dropped mode)) ∧
            t.lp.loadedRows = s'.lp.loadedRows := by
      rw [drops]
      apply (PricingRound.selectBest_reaches inside _).imp
      all_goals
        intro _ _ closed
        exact ⟨closed.settled, closed.rows⟩
    rw [ensures_bind, ensures_get, ensures_bind]
    apply (columns_frames.loses settled' selected).imp
    · intro result s'' done
      obtain ⟨settled'', t, rfl, rows⟩ := done
      rw [ensures_bind, ensures_modify]
      refine ⟨settled'', ?_⟩
      change s'.tree.desk t.lp.loadedRows = _
      rw [rows]
      exact desk
    · intro _ s'' kept
      obtain ⟨settled'', t, rfl, rows⟩ := kept
      refine ⟨settled'', ?_⟩
      change s'.tree.desk t.lp.loadedRows = _
      rw [rows]
      exact desk
  · intro _ s' kept
    obtain ⟨⟨settled', desk⟩, ended, state⟩ := kept
    have drops : s.dropped mode = 0 := by
      unfold dropped
      simp only [ended]
    rw [drops, show Holdings.ofColumns 0 = 0 from rfl, add_zero]
    exact ⟨settled', desk⟩

end Session

end BranchCutPrice
