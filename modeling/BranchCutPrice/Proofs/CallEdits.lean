import BranchCutPrice.Proofs.Calls
import BranchCutPrice.Proofs.Editing

/-!
The changes behind the calls that a client can make, and the edits behind these. A call creates
nodes or removes nodes, but never both.
-/

namespace BranchCutPrice

open BranchCutPrice.Action BranchCutPrice.Tree

namespace Action.Respects

variable {σ α : Type} {may : Set Deed} {torn turns idle clears : Prop}

theorem edits {act : Action (Linked Tree) α}
    (alters : act.Respects (Linked.Alters may torn turns)) : act.Edits Linked.own may torn :=
  fun s => (alters s).mono fun _ done => done.tree.edited

/-- An operation on the tree of a session and its relaxation. -/
theorem onTree {act : Action (Linked Tree) α}
    (alters : act.Respects (Linked.Alters may torn turns)) :
    (Session.onTree act).Respects (Session.Alters may torn turns idle clears) :=
  alters.run fun _ _ done =>
    ⟨done.tree, done.lp.mono False.elim False.elim, fun _ => ⟨rfl, rfl⟩⟩

theorem treePart {act : Action Tree α} (changes : act.Respects (Changed may torn turns)) :
    (Session.treePart.run act).Respects (Session.Alters may torn turns idle clears) :=
  changes.run fun _ _ changed => ⟨changed, .rfl, fun _ => ⟨rfl, rfl⟩⟩

theorem lpPart {act : Action Relaxation α}
    (shifts : act.Respects (Relaxation.Shifted True clears)) :
    (Session.lpPart.run act).Respects (Session.Alters may torn turns idle clears) :=
  shifts.run fun _ _ shifted => ⟨.rfl, shifted, fun _ => ⟨rfl, rfl⟩⟩

/-- An operation on a part of a session beside the tree. -/
theorem linked {τ : Type} {part : Part Session τ} {act : Action (Linked τ) α}
    (rests : act.Respects Linked.Rests) (tree : ∀ s t, (part.set s t).tree = s.tree)
    (pools : idle → ∀ s t,
      (part.set s t).cutPool = s.cutPool ∧ (part.set s t).columnPool = s.columnPool) :
    ((Session.linked part).run act).Respects (Session.Alters may torn turns idle clears) := by
  apply rests.run
  intro s t shifted
  refine ⟨?_, shifted.mono False.elim False.elim, fun idle => pools idle s t.own⟩
  change Changed may torn turns s.tree (part.set s t.own).tree
  rw [tree]
  exact .rfl

end Action.Respects

/-! ### Trees -/

/-- Whether a call may create nodes of its tree, or remove some. -/
def TreeCall.edits : TreeCall → Set Deed
  | createRoot _ | createLeaf _ _ => {.sprout}
  | freeNode _ | pruneLeaves _ | clear => {.fell}
  | _ => ∅

/-- Whether a call moves the focus. -/
def TreeCall.turns : TreeCall → Prop
  | focusOn _ => True
  | _ => False

namespace TreeCall

theorem edits_oneWay (call : TreeCall) : .fell ∉ call.edits ∨ .sprout ∉ call.edits := by
  cases call <;> simp [edits]

/-- A clearance that is refused half way leaves a torn tree. -/
theorem perform_changes {torn : Prop} (call : TreeCall) (tears : call = clear → torn) :
    call.perform.Respects (Linked.Alters call.edits torn call.turns) := by
  cases call with
  | createRoot basis => exact (createRoot_changes (Set.mem_singleton _) basis).discard
  | createLeaf parent basis => exact (createNode_changes (Set.mem_singleton _) _ basis).discard
  | addRow id row => exact addRow_changes id row
  | addDomainChange id change => exact (addDomainChange_changes id change).onOwn
  | setConstraints id constraints => exact (setConstraints_changes id constraints).onOwn
  | raiseBound id bound => exact (raiseBound_changes id bound).discard.onOwn
  | insertLeaf id => exact (insertLeaf_changes id).onOwn
  | removeLeaf id => exact (removeLeaf_changes id).onOwn
  | popLeaf => exact popLeaf_changes.discard.onOwn
  | leafToFork id => exact leafToFork_changes id
  | forkToSubroot id => exact forkToSubroot_changes id
  | promote id => exact (promote_changes id).discard
  | focusOn id => exact (focusOn_changes trivial id).discard
  | freeNode id => exact freeNode_changes (Set.mem_singleton _) id
  | pruneLeaves cutoff => exact (pruneLeaves_changes (Set.mem_singleton _) cutoff).discard
  | clear => exact clear_changes (Set.mem_singleton _) (tears rfl)

theorem perform_edits {torn : Prop} (call : TreeCall) (tears : call = clear → torn) :
    call.perform.Edits Linked.own call.edits torn :=
  (call.perform_changes tears).edits

theorem perform_changed {s : Linked Tree} {owed : Holdings} (call : TreeCall)
    (settled : Settled s owed) (shaped : s.desk.Shaped) :
    call.perform.Reaches s (Linked.Alters call.edits False call.turns s) := by
  by_cases clears : call = clear
  · rw [clears]
    exact clear_changed settled shaped (Set.mem_singleton _)
  · exact call.perform_changes (fun same => clears same) s

end TreeCall

/-! ### Pools and rounds -/

theorem CutPoolCall.perform_rests (call : CutPoolCall) :
    call.perform.Respects Linked.Rests := by
  cases call with
  | add row => exact (CutPool.add_rests row).discard
  | scan => exact (respects_get.bind fun _ => CutPool.stock_rests _).discard
  | addNew | remove | clear => exact CutPool.stock_rests _

theorem RowPoolCall.perform_rests (call : RowPoolCall) :
    call.perform.Respects Linked.Rests := by
  have stock (act : Action (Stock .row Row) Unit) : (rowStock.run act).Respects Linked.Rests :=
    respects_apart act fun _ _ => .beside ⟨rfl, rfl, rfl, rfl⟩ ⟨rfl, rfl, rfl, rfl, rfl⟩
  cases call with
  | _ => exact stock _

theorem CutRoundCall.perform_rests (call : CutRoundCall) :
    call.perform.Respects Linked.Rests := by
  cases call with
  | add row efficacy forced => exact SeparationRound.add_rests row efficacy forced
  | clear => exact SeparationRound.clear_rests

section Rounds

variable {may : Set Deed} {torn turns : Prop}

theorem SeparationRound.addCuts_changes (node : NodeId) (limit optional : Nat)
    (cuts : List StoredCut) :
    (addCuts node limit optional cuts).Respects (Linked.Alters may torn turns) := by
  induction cuts generalizing optional with
  | nil => exact respects_pure _
  | cons cut rest ih =>
    unfold addCuts
    split
    · exact respects_pure _
    · apply respects_get.bind
      intro s
      split
      · exact ih optional
      · apply (addRow_changes node cut.row).bind
        intro _
        apply (ih _).bind
        intro more
        exact respects_pure _

theorem SeparationRound.apply_changes (node : NodeId) (limit : Nat) :
    (SeparationRound.apply node limit).Respects
      (Function.onFun (Linked.Alters may torn turns) treeBeside) := by
  unfold SeparationRound.apply
  apply respects_get.bind
  intro s
  have added (cuts : List StoredCut) :
      (onRight (addCuts node limit 0 cuts) : Action (Linked (SeparationRound × Tree)) Nat).Respects
        (Function.onFun (Linked.Alters may torn turns) treeBeside) :=
    (addCuts_changes node limit 0 cuts).run fun _ _ altered => altered
  have beside {act : Action (Linked SeparationRound) Unit} (rests : act.Respects Linked.Rests) :
      (onLeft act : Action (Linked (SeparationRound × Tree)) Unit).Respects
        (Function.onFun (Linked.Alters may torn turns) treeBeside) :=
    rests.run fun _ _ same => ⟨.rfl, same⟩
  apply (added _).attempt.bind
  intro result
  apply (beside (rests_onOwn _)).bind
  intro _
  apply (beside clear_rests).bind
  intro _
  apply (respects_resume result).bind
  intro count
  apply (respects_emitIf _ _).bind
  intro _
  exact respects_pure _

end Rounds

/-! ### Sessions -/

namespace Session

variable {may : Set Deed} {torn turns idle clears : Prop}

theorem pooledCut_changes (busy : ¬idle) (row : RowId) :
    (pooledCut row).Respects (Session.Alters may torn turns idle clears) := by
  unfold pooledCut
  apply (respects_read _).bind
  intro item
  split
  · exact respects_pure _
  · apply ((CutPool.add_rests row).linked (fun _ _ => rfl) fun idle => absurd idle busy).bind
    intro _
    exact respects_pure _

theorem addCut_changes (busy : ¬idle) (row : RowId) (forced : Bool) :
    (addCut row forced).Respects (Session.Alters may torn turns idle clears) := by
  unfold addCut
  apply (pooledCut_changes busy row).bind
  intro stored
  apply (respects_read _).bind
  intro item
  apply respects_get.bind
  intro s
  exact (SeparationRound.add_rests _ _ _).linked (fun _ _ => rfl) fun idle => absurd idle busy

theorem separationRound_changes (busy : ¬idle) (id : NodeId) :
    (separationRound id).Respects (Session.Alters may torn turns idle clears) := by
  unfold separationRound
  apply (CutPool.separate_rests.linked (fun _ _ => rfl) fun idle => absurd idle busy).bind
  intro finding
  apply respects_get.bind
  intro s
  split
  · exact respects_pure _
  · have applied : ((linked (cutsPart.pair treePart)).run (SeparationRound.apply id
        s.settings.maxCutsPerRound)).Respects (Session.Alters may torn turns idle clears) :=
      (SeparationRound.apply_changes id _).run fun _ _ altered =>
        ⟨altered.tree, altered.lp.mono False.elim False.elim, fun _ => ⟨rfl, rfl⟩⟩
    apply applied.bind
    intro added
    exact (respects_modify fun _ => ⟨.rfl, .rfl, fun _ => ⟨rfl, rfl⟩⟩).bind fun _ =>
      respects_pure _

theorem pooledColumn_changes (busy : ¬idle) (column : ColumnId) :
    (pooledColumn column).Respects (Session.Alters may torn turns idle clears) := by
  unfold pooledColumn
  apply (respects_read _).bind
  intro item
  split
  · exact respects_pure _
  · apply ((ColumnPool.stock_rests _).linked (fun _ _ => rfl) fun idle => absurd idle busy).bind
    intro _
    exact respects_pure _

theorem addPricedColumn_changes (busy : ¬idle) (column : ColumnId) (reducedCost : Float)
    (forced : Bool) :
    (addPricedColumn column reducedCost forced).Respects
      (Session.Alters may torn turns idle clears) := by
  unfold addPricedColumn
  apply (pooledColumn_changes busy column).bind
  intro stored
  exact (PricingRound.add_rests _ _ _).linked (fun _ _ => rfl) fun idle => absurd idle busy

theorem pricingRound_changes (busy : ¬idle) (mode : PricingMode) :
    (pricingRound mode).Respects (Session.Alters may torn turns idle clears) := by
  unfold pricingRound
  apply ((ColumnPool.price_rests mode).linked (fun _ _ => rfl) fun idle => absurd idle busy).bind
  intro _
  apply respects_get.bind
  intro s
  apply ((PricingRound.selectBest_rests _).linked (fun _ _ => rfl)
    fun idle => absurd idle busy).bind
  intro result
  exact (respects_modify fun _ => ⟨.rfl, .rfl, fun _ => ⟨rfl, rfl⟩⟩).bind fun _ =>
    respects_pure _

theorem reportProgress_changes : reportProgress.Respects (Session.Alters may torn turns idle clears) :=
  respects_get.bind fun _ => respects_emitIf _ _

theorem nextAmong_changes (allowed : .fell ∈ may) (turning : turns) (remaining : Nat) :
    (nextAmong remaining).Respects (Session.Alters may torn turns idle clears) := by
  induction remaining with
  | zero => exact respects_pure _
  | succ remaining ih =>
    unfold nextAmong
    apply popLeaf_changes.treePart.bind
    intro popped
    split
    · exact respects_pure _
    · apply (respects_read _).bind
      intro node
      apply respects_get.bind
      intro s
      split
      · apply (freeNode_changes allowed _).onTree.bind
        intro _
        exact (respects_modify fun _ => ⟨.rfl, .rfl, fun _ => ⟨rfl, rfl⟩⟩).bind
          fun _ => ih
      · apply (focusOn_changes turning _).onTree.bind
        intro _
        apply (respects_modify fun _ => ⟨.rfl, .rfl, fun _ => ⟨rfl, rfl⟩⟩).bind
        intro _
        exact reportProgress_changes.bind fun _ => respects_pure _

theorem installSolution_changes (id : NodeId) (primal duals : Array Float) (objective : Float) :
    (installSolution id primal duals objective).Respects
      (Session.Alters may torn turns idle clears) := by
  unfold installSolution
  apply (Relaxation.installSolution_shifts trivial primal duals objective).lpPart.bind
  intro solution
  exact (raiseBound_changes id objective).treePart.bind fun _ => respects_pure _

theorem installFarkas_changes (proof : Array Float) :
    (installFarkas proof).Respects (Session.Alters may torn turns idle clears) :=
  (Relaxation.installFarkas_shifts trivial proof).lpPart

theorem adoptRows_changes (root : NodeId) (rows : List RowId) :
    (adoptRows root rows).Respects (Session.Alters may torn turns idle clears) := by
  refine Respects.forM (fun row => ?_) rows
  apply (addRow_changes root row).onTree.bind
  intro _
  exact (Relaxation.releaseRow_shifts row).lpPart

theorem start_changes (allowed : .sprout ∈ may) (turning : turns) :
    start.Respects (Session.Alters may torn turns idle clears) := by
  unfold start
  apply respects_get.bind
  intro s
  apply (Relaxation.captureRows_shifts _).lpPart.bind
  intro _
  apply (Relaxation.shrinkRows_shifts 0).lpPart.bind
  intro _
  apply Relaxation.snapshotBasis_shifts.lpPart.bind
  intro basis
  apply (createRoot_changes allowed basis).onTree.attempt.bind
  intro created
  apply (Relaxation.releaseBasis_shifts basis).lpPart.bind
  intro _
  apply (respects_resume created).bind
  intro root
  apply (focusOn_changes turning root).onTree.bind
  intro _
  apply (adoptRows_changes root _).bind
  intro _
  apply (insertLeaf_changes root).treePart.bind
  intro _
  exact respects_get.bind fun _ => (respects_emitIf _ _).bind fun _ => respects_pure _

theorem createChild_changes (allowed : .sprout ∈ may) (parent : NodeId) (basis : BasisId)
    (changes : List BoundChange) :
    (createChild parent basis changes).Respects (Session.Alters may torn turns idle clears) := by
  unfold createChild createLeaf
  apply (createNode_changes allowed _ basis).onTree.bind
  intro child
  apply (Respects.forM (fun change => (addDomainChange_changes child change).treePart) changes).bind
  intro _
  exact (insertLeaf_changes child).treePart.bind fun _ => respects_pure _

theorem createChildren_changes (allowed : .sprout ∈ may) (parent : NodeId) (basis : BasisId)
    (children : List (List BoundChange)) :
    (createChildren parent basis children).Respects (Session.Alters may torn turns idle clears) := by
  induction children with
  | nil => exact respects_pure _
  | cons changes rest ih =>
    unfold createChildren
    apply (createChild_changes allowed parent basis changes).bind
    intro child
    exact ih.bind fun _ => respects_pure _

theorem branch_changes (allowed : .sprout ∈ may) (id : NodeId)
    (children : List (List BoundChange)) :
    (branch id children).Respects (Session.Alters may torn turns idle clears) := by
  unfold branch
  split
  · exact respects_throw _
  · apply (promote_changes id).onTree.bind
    intro kind
    apply (respects_emitIf _ _).bind
    intro _
    apply Relaxation.snapshotBasis_shifts.lpPart.bind
    intro basis
    apply (createChildren_changes allowed id basis children).attempt.bind
    intro created
    apply (Relaxation.releaseBasis_shifts basis).lpPart.bind
    intro _
    exact respects_resume created

/-- The incumbent is no part of the tree or of a pool. -/
theorem updateIncumbent_changes (solution : Array Float) (objective : Float) :
    (incumbentPart.run (Incumbent.update solution objective)).Respects
      (Session.Alters may torn turns idle clears) :=
  respects_apart _ fun _ _ => ⟨.rfl, .rfl, fun _ => ⟨rfl, rfl⟩⟩

theorem reportSolution_changes (allowed : .fell ∈ may) (solution : Array Float)
    (objective : Float) :
    (reportSolution solution objective).Respects (Session.Alters may torn turns idle clears) := by
  unfold reportSolution
  apply (updateIncumbent_changes solution objective).bind
  intro better
  split
  · apply (pruneLeaves_changes allowed objective).onTree.bind
    intro leaves
    apply (respects_modify fun _ => ⟨.rfl, .rfl, fun _ => ⟨rfl, rfl⟩⟩).bind
    intro _
    exact respects_get.bind fun _ => (respects_emitIf _ _).bind fun _ => respects_pure _
  · exact respects_pure _

/-- What follows once the nodes are gone. -/
private theorem unload_changes (busy : ¬idle) (wipes : clears) : (do
    (linked cutPoolPart).run CutPool.clear
    (linked columnPoolPart).run ColumnPool.clear
    lpPart.run Relaxation.clear : Action Session Unit).Respects
      (Session.Alters may torn turns idle clears) := by
  apply ((CutPool.stock_rests _).linked (fun _ _ => rfl) fun idle => absurd idle busy).bind
  intro _
  apply ((ColumnPool.stock_rests _).linked (fun _ _ => rfl) fun idle => absurd idle busy).bind
  intro _
  exact (Relaxation.clear_shifts wipes).lpPart

variable {s : Session} {owed : Holdings}

/-- A clearance of a session up to that of its relaxation. -/
def strip : Action Session Unit := do
  (linked cutsPart).run SeparationRound.clear
  (linked columnsPart).run PricingRound.clear
  onTree Tree.clear
  (linked cutPoolPart).run CutPool.clear
  (linked columnPoolPart).run ColumnPool.clear

theorem clear_eq : clear = (strip >>= fun _ => lpPart.run Relaxation.clear) := by
  unfold clear strip
  simp only [bind_assoc]

theorem strip_changes (allowed : .fell ∈ may) (open' : torn) (busy : ¬idle) :
    strip.Respects (Session.Alters may torn turns idle clears) := by
  unfold strip
  apply (SeparationRound.clear_rests.linked (fun _ _ => rfl) fun idle => absurd idle busy).bind
  intro _
  apply (PricingRound.clear_rests.linked (fun _ _ => rfl) fun idle => absurd idle busy).bind
  intro _
  apply (Tree.clear_changes allowed open').onTree.bind
  intro _
  apply ((CutPool.stock_rests _).linked (fun _ _ => rfl) fun idle => absurd idle busy).bind
  intro _
  exact (ColumnPool.stock_rests _).linked (fun _ _ => rfl) fun idle => absurd idle busy

theorem clear_changes (allowed : .fell ∈ may) (open' : torn) (busy : ¬idle) (wipes : clears) :
    clear.Respects (Session.Alters may torn turns idle clears) := by
  rw [clear_eq]
  exact (strip_changes allowed open' busy).bind fun _ => (Relaxation.clear_shifts wipes).lpPart

/-- The rounds give back what they hold without a refusal, so the nodes are removed in a settled
state. -/
theorem clear_changed (settled : Settled s owed) (shaped : s.desk.Shaped) (allowed : .fell ∈ may)
    (busy : ¬idle) (wipes : clears) :
    clear.Reaches s (Session.Alters may torn turns idle clears s) := by
  have cuts : ((linked cutsPart).run SeparationRound.clear).Reaches s fun s' =>
      (Settled s' owed ∧ s'.desk = s.desk) ∧ Session.Alters may torn turns idle clears s s' := by
    refine Ensures.and (beside_reaches cuts_frames (fun _ _ => rfl) settled fun _ inside => ?_)
      (SeparationRound.clear_rests.linked (fun _ _ => rfl) (fun idle => absurd idle busy) s)
    exact (SeparationRound.clear_ensures inside).imp (fun _ _ done => ⟨done.1, done.2.2⟩)
      (fun _ _ no => no.elim)
  unfold Reaches clear
  rw [ensures_bind]
  apply cuts.imp
  · intro _ s₁ done
    obtain ⟨⟨settled₁, desk₁⟩, altered₁⟩ := done
    have columns : ((linked columnsPart).run PricingRound.clear).Reaches s₁ fun s' =>
        (Settled s' owed ∧ s'.desk = s₁.desk) ∧
          Session.Alters may torn turns idle clears s₁ s' := by
      refine Ensures.and (beside_reaches columns_frames (fun _ _ => rfl) settled₁
        fun _ inside => ?_)
        (PricingRound.clear_rests.linked (fun _ _ => rfl) (fun idle => absurd idle busy) s₁)
      exact (PricingRound.clear_ensures inside).imp (fun _ _ done => ⟨done.1, done.2.2⟩)
        (fun _ _ no => no.elim)
    rw [ensures_bind]
    apply columns.imp
    · intro _ s₂ done
      obtain ⟨⟨settled₂, desk₂⟩, altered₂⟩ := done
      have altered : Session.Alters may torn turns idle clears s s₂ := trans_of _ altered₁ altered₂
      have shaped₂ : s₂.desk.Shaped := by
        rw [desk₂, desk₁]
        exact shaped
      obtain ⟨_, inside, _⟩ := tree_frames.enter settled₂
      have cleared : (onTree Tree.clear).Reaches s₂ (Session.Alters may torn turns idle clears s₂) := by
        apply ensures_run.2
        apply (Tree.clear_changed inside shaped₂ allowed).imp
        all_goals
          intro _ _ done
          exact ⟨done.tree, done.lp.mono False.elim False.elim, fun _ => ⟨rfl, rfl⟩⟩
      rw [ensures_bind]
      apply cleared.imp
      · intro _ _ done
        exact (unload_changes busy wipes).after (trans_of _ altered done)
      · intro _ _ done
        exact trans_of _ altered done
    · intro _ _ kept
      exact trans_of _ altered₁ kept.2
  · intro _ _ kept
    exact kept.2

end Session

/-- Whether a call may create nodes of the tree of its session, or remove some. -/
def SessionCall.edits : SessionCall → Set Deed
  | start | branch _ _ => {.sprout}
  | nextNode | finishNode _ | reportSolution _ _ | clear => {.fell}
  | _ => ∅

/-- Whether a call moves the focus of the tree of its session. -/
def SessionCall.turns : SessionCall → Prop
  | start | nextNode => True
  | _ => False

/-- Whether a call leaves the pools of its session alone. -/
def SessionCall.idle : SessionCall → Prop
  | addCut _ _ | separationRound _ | addPricedColumn _ _ _ | pricingRound _ | clear => False
  | _ => True

/-- Whether a call unloads columns. -/
def SessionCall.clears : SessionCall → Prop
  | clear => True
  | _ => False

namespace SessionCall

theorem edits_oneWay (call : SessionCall) : .fell ∉ call.edits ∨ .sprout ∉ call.edits := by
  cases call <;> simp [edits]

theorem perform_changes {torn : Prop} (call : SessionCall) (tears : call = clear → torn) :
    call.perform.Respects
      (Session.Alters call.edits torn call.turns call.idle call.clears) := by
  cases call with
  | start => exact (Session.start_changes (Set.mem_singleton _) trivial).discard
  | nextNode =>
    exact (respects_get.bind fun _ =>
      Session.nextAmong_changes (Set.mem_singleton _) trivial _).discard
  | installSolution id primal duals objective =>
    exact (Session.installSolution_changes id primal duals objective).discard
  | installFarkas proof => exact (Session.installFarkas_changes proof).discard
  | addCut row forced => exact Session.addCut_changes not_false row forced
  | separationRound id => exact (Session.separationRound_changes not_false id).discard
  | addPricedColumn column reducedCost forced =>
    exact Session.addPricedColumn_changes not_false column reducedCost forced
  | pricingRound mode => exact (Session.pricingRound_changes not_false mode).discard
  | branch id children =>
    exact (Session.branch_changes (Set.mem_singleton _) id children).discard
  | finishNode id => exact (freeNode_changes (Set.mem_singleton _) id).onTree
  | reportSolution solution objective =>
    exact (Session.reportSolution_changes (Set.mem_singleton _) solution objective).discard
  | updateIncumbent solution objective =>
    exact (Session.updateIncumbent_changes solution objective).discard
  | reportProgress => exact Session.reportProgress_changes
  | clear => exact Session.clear_changes (Set.mem_singleton _) (tears rfl) not_false trivial

theorem perform_changed {s : Session} {owed : Holdings} (call : SessionCall)
    (settled : Settled s owed) (shaped : s.desk.Shaped) :
    call.perform.Reaches s
      (Session.Alters call.edits False call.turns call.idle call.clears s) := by
  by_cases clears : call = clear
  · rw [clears]
    exact Session.clear_changed settled shaped (Set.mem_singleton _) not_false trivial
  · exact call.perform_changes (fun same => clears same) s

end SessionCall

end BranchCutPrice
