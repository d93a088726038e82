import BranchCutPrice.Pricing.ColumnPool
import BranchCutPrice.Proofs.Rosters
import BranchCutPrice.Separation.CutPool

/-!
Operations on structures that use a relaxation. Those on pools and rounds install no solution and
unload no column, whatever becomes of the structure.
-/

namespace BranchCutPrice

open BranchCutPrice.Action

open Relaxation

/-- No solution is installed and no column unloaded, whatever becomes of the structure that uses
the relaxation. -/
def Linked.Rests {τ : Type} (s s' : Linked τ) : Prop :=
  Shifted False False s.lp s'.lp

section Linked

variable {τ υ α : Type}

instance : Std.Refl (@Linked.Rests τ) where
  refl _ := Shifted.rfl

instance : IsTrans (Linked τ) Linked.Rests where
  trans _ _ _ := Shifted.trans

namespace Action

theorem Respects.rests {act : Action Relaxation α} (shifts : act.Respects (Shifted False False)) :
    (onLp act : Action (Linked τ) α).Respects Linked.Rests :=
  shifts.run fun _ _ shifted => shifted

theorem rests_onOwn (act : Action τ α) : (onOwn act).Respects Linked.Rests :=
  respects_apart act fun _ _ => Shifted.rfl

theorem Respects.onLeft {act : Action (Linked τ) α} (rests : act.Respects Linked.Rests) :
    (onLeft act : Action (Linked (τ × υ)) α).Respects Linked.Rests :=
  rests.run fun _ _ shifted => shifted

theorem Respects.onRight {act : Action (Linked υ) α} (rests : act.Respects Linked.Rests) :
    (onRight act : Action (Linked (τ × υ)) α).Respects Linked.Rests :=
  rests.run fun _ _ shifted => shifted

end Action

end Linked

/-! ### Pools -/

theorem CutPool.stock_rests {α : Type} (act : Action (Stock .row Row) α) :
    (stockPart.run act).Respects Linked.Rests :=
  respects_apart act fun _ _ => .beside ⟨rfl, rfl, rfl, rfl⟩ ⟨rfl, rfl, rfl, rfl, rfl⟩

theorem ColumnPool.stock_rests {α : Type} (act : Action (Stock .column Column) α) :
    (stockPart.run act).Respects Linked.Rests :=
  respects_apart act fun _ _ => .beside ⟨rfl, rfl, rfl, rfl⟩ ⟨rfl, rfl, rfl, rfl, rfl⟩

theorem CutPool.add_rests (row : RowId) : (add row).Respects Linked.Rests :=
  (stock_rests _).bind fun _ => (respects_emitIf _ _).bind fun _ => respects_pure _

/-! ### Separation rounds -/

namespace SeparationRound

theorem add_rests (row : RowId) (efficacy : RawDouble) (forced : Bool) :
    (add row efficacy forced).Respects Linked.Rests := by
  unfold add
  apply respects_get.bind
  intro s
  split
  · split
    · exact rests_onOwn _
    · exact respects_pure _
  · exact (captureRow_shifts row).rests.bind fun _ => rests_onOwn _

theorem clear_rests : clear.Respects Linked.Rests := by
  unfold clear
  apply respects_get.bind
  intro s
  exact (rests_onOwn _).bind fun _ => (releaseRows_shifts _).rests

end SeparationRound

theorem CutPool.separate_rests : CutPool.separate.Respects Linked.Rests := by
  unfold separate
  have scanned : CutPool.scan.Respects Linked.Rests :=
    respects_get.bind fun _ => stock_rests _
  apply scanned.onLeft.bind
  intro survey
  refine Respects.bind (Respects.forM (fun cut => ?_) _) fun _ => respects_pure _
  exact (SeparationRound.add_rests cut.1 (.ofFloat cut.2) false).onRight

/-! ### Pricing rounds -/

namespace PricingRound

theorem add_rests (column : ColumnId) (reducedCost : Float) (forced : Bool) :
    (add column reducedCost forced).Respects Linked.Rests := by
  unfold add
  apply respects_get.bind
  intro s
  split
  · exact respects_pure _
  · apply (respects_read _).bind
    intro item
    exact (captureColumn_shifts column).rests.bind fun _ => rests_onOwn _

theorem updateOrthogonality_rests (admitted : ColumnId) :
    (updateOrthogonality admitted).Respects Linked.Rests := by
  unfold updateOrthogonality
  apply respects_get.bind
  intro s
  apply (respects_read _).bind
  intro column
  dsimp only
  apply (rests_onOwn _).bind
  intro _
  exact (respects_resume _).bind fun _ => rests_onOwn _

theorem admitForced_rests (forced : List PricedColumn) :
    (admitForced forced).Respects Linked.Rests := by
  induction forced with
  | nil => exact respects_pure _
  | cons priced rest ih =>
    unfold admitForced
    apply respects_get.bind
    intro s
    split
    · exact ih
    · apply (loadColumn_shifts _).rests.bind
      intro _
      apply (updateOrthogonality_rests _).bind
      intro _
      exact ih.bind fun _ => respects_pure _

theorem admitBest_rests (best : PricedColumn) : (admitBest best).Respects Linked.Rests :=
  (respects_emit _).bind fun _ => (loadColumn_shifts _).rests.bind fun _ =>
    (rests_onOwn _).bind fun _ => updateOrthogonality_rests _

theorem admitWaiting_rests (steps quota : Nat) :
    (admitWaiting steps quota).Respects Linked.Rests := by
  induction steps generalizing quota with
  | zero => exact respects_pure _
  | succ steps ih =>
    cases quota with
    | zero => exact respects_pure _
    | succ quota =>
      unfold admitWaiting
      apply respects_get.bind
      intro s
      split
      · exact respects_pure _
      · apply (rests_onOwn _).bind
        intro _
        apply respects_get.bind
        intro s'
        split
        · exact ih (quota + 1)
        · apply (admitBest_rests _).bind
          intro _
          exact (ih quota).bind fun _ => respects_pure _

theorem clear_rests : clear.Respects Linked.Rests :=
  respects_get.bind fun _ => (rests_onOwn _).bind fun _ => (releaseColumns_shifts _).rests

theorem selectBest_rests (quota : Nat) : (selectBest quota).Respects Linked.Rests := by
  have admits : (admitAll quota).Respects Linked.Rests :=
    respects_get.bind fun _ => (admitForced_rests _).bind fun _ =>
      respects_get.bind fun _ => (admitWaiting_rests _ quota).bind fun _ => respects_pure _
  unfold selectBest
  apply admits.attempt.bind
  intro result
  apply clear_rests.bind
  intro _
  exact (respects_resume result).bind fun _ => (respects_emit _).bind fun _ => respects_pure _

end PricingRound

theorem ColumnPool.price_rests (mode : PricingMode) :
    (ColumnPool.price mode).Respects Linked.Rests := by
  unfold price
  have scanned : (ColumnPool.scan mode).Respects Linked.Rests :=
    respects_get.bind fun _ => stock_rests _
  apply scanned.onLeft.bind
  intro survey
  refine Respects.bind (Respects.forM (fun found => ?_) _) fun _ => respects_pure _
  exact (PricingRound.add_rests found.1 found.2 _).onRight

/-! ### Clients -/

/-- Whether a call unloads columns. -/
def ClientCall.clears : ClientCall → Prop
  | clear => True
  | _ => False

/-- A client may do anything to the relaxation, but only a clearance unloads columns. -/
theorem ClientCall.perform_shifts (call : ClientCall) :
    call.perform.Respects (Function.onFun (Shifted True call.clears) Linked.lp) := by
  have plain {act : Action Relaxation Unit} (shifts : act.Respects (Shifted True call.clears)) :
      (onLp act : Action (Linked Holdings) Unit).Respects
        (Function.onFun (Shifted True call.clears) Linked.lp) :=
    shifts.run fun _ _ shifted => shifted
  have own (act : Action Holdings Unit) :
      (onOwn act).Respects (Function.onFun (Shifted True call.clears) Linked.lp) :=
    respects_apart act fun _ _ => Shifted.rfl
  have gains {α : Type} {act : Action Relaxation α} (gained : α → Holdings)
      (shifts : act.Respects (Shifted True call.clears)) :
      (gain act gained).Respects (Function.onFun (Shifted True call.clears) Linked.lp) :=
    Respects.bind (Respects.run shifts fun _ _ shifted => shifted) fun _ => own _
  have spends {act : Action Relaxation Unit} (spent : Holdings)
      (shifts : act.Respects (Shifted True call.clears)) :
      (spend act spent).Respects (Function.onFun (Shifted True call.clears) Linked.lp) :=
    (plain shifts).bind fun _ => own _
  cases call with
  | createRow row => exact gains _ (createRow_shifts row)
  | createColumn column => exact gains _ (createColumn_shifts column)
  | createBasis basis => exact gains _ (createBasis_shifts basis)
  | snapshotBasis => exact gains _ snapshotBasis_shifts
  | captureRow row => exact gains _ (captureRow_shifts row)
  | captureColumn column => exact gains _ (captureColumn_shifts column)
  | captureBasis basis => exact gains _ (captureBasis_shifts basis)
  | releaseRow row => exact spends _ (releaseRow_shifts row)
  | releaseColumn column => exact spends _ (releaseColumn_shifts column)
  | releaseBasis basis => exact spends _ (releaseBasis_shifts basis)
  | replaceRow row value => exact plain (replaceRow_shifts row value)
  | replaceColumn column value => exact plain (replaceColumn_shifts column value)
  | replaceBasis basis value => exact plain (replaceBasis_shifts basis value)
  | setBasis basis => exact plain (setBasis_shifts basis)
  | loadRow row => exact plain (loadRow_shifts row)
  | unloadRow row => exact plain (unloadRow_shifts row)
  | shrinkRows length => exact plain (shrinkRows_shifts length)
  | loadColumn column => exact plain (loadColumn_shifts column)
  | clear => exact plain (clear_shifts trivial)
  | installSolution primal duals objective =>
    exact plain (installSolution_shifts trivial primal duals objective).discard
  | installFarkas proof => exact plain (installFarkas_shifts trivial proof).discard

end BranchCutPrice
