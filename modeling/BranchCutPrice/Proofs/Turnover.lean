import BranchCutPrice.Proofs.Budding
import BranchCutPrice.Proofs.Calls

/-!
What the steps of a search do to the leaves of its tree. A leaf comes about only in a start or
a branching, and is queued by it; it leaves the queue when it is handed out or closed; and it
is closed by a branching on it, when it is finished, or because its bound reaches the cutoff.
-/

namespace BranchCutPrice

open BranchCutPrice.Action BranchCutPrice.Tree Relaxation

/-- An objective stayed, or became better by more than rounding. -/
def Incumbent.Lowers (incumbent incumbent' : Incumbent) : Prop :=
  incumbent'.objective = incumbent.objective ∨
    incumbent'.objective < incumbent.objective - Double.boundSlack

namespace Session

variable {α : Type} {s : Session}

/-! ### Parts -/

theorem onTree_yields (done : α → Tree → Prop) {act : Action (Linked Tree) α}
    (yields : act.Yields ⟨s.tree, s.lp⟩ fun a t => done a t.own) :
    (onTree act).Yields s fun a s' => done a s'.tree ∧ s'.incumbent = s.incumbent := by
  apply ensures_run.2
  apply Ensures.yields yields
  intro _ _ did
  exact ⟨did, rfl⟩

theorem treePart_yields (done : α → Tree → Prop) {act : Action Tree α}
    (yields : act.Yields s.tree done) :
    (treePart.run act).Yields s fun a s' => done a s'.tree ∧ s'.incumbent = s.incumbent := by
  apply ensures_run.2
  apply Ensures.yields yields
  intro _ _ did
  exact ⟨did, rfl⟩

/-- Neither the tree nor the incumbent is another. -/
def Idle (s s' : Session) : Prop :=
  s'.tree = s.tree ∧ s'.incumbent = s.incumbent

theorem Idle.trans {s s' s'' : Session} (first : Idle s s') (second : Idle s' s'') : Idle s s'' :=
  ⟨second.1.trans first.1, second.2.trans first.2⟩

/-- Work on parts beside the tree and the incumbent. -/
theorem part_idle {τ : Type} {part : Part Session τ} (act : Action τ α) {s' : Session}
    (earlier : Idle s s') (apart : ∀ t, Idle s' (part.set s' t)) :
    (part.run act).Yields s' fun _ => Idle s :=
  ensures_run.2 (yields_of_all fun _ t => earlier.trans (apart t))

/-! ### Rounds -/

theorem pooledCut_idle (row : RowId) : (pooledCut row).Yields s fun _ => Idle s := by
  unfold Yields pooledCut
  rw [ensures_bind]
  apply yields_read.2
  intro item _
  split
  · exact ⟨rfl, rfl⟩
  · rw [ensures_bind]
    exact part_idle _ ⟨rfl, rfl⟩ fun _ => ⟨rfl, rfl⟩

theorem addCut_idle (row : RowId) (forced : Bool) :
    (addCut row forced).Yields s fun _ => Idle s := by
  unfold Yields addCut
  rw [ensures_bind]
  apply (pooledCut_idle row).yields
  intro stored s' idle
  rw [ensures_bind]
  apply yields_read.2
  intro item _
  rw [ensures_bind, ensures_get]
  exact part_idle _ idle fun _ => ⟨rfl, rfl⟩

theorem pooledColumn_idle (column : ColumnId) :
    (pooledColumn column).Yields s fun _ => Idle s := by
  unfold Yields pooledColumn
  rw [ensures_bind]
  apply yields_read.2
  intro item _
  split
  · exact ⟨rfl, rfl⟩
  · rw [ensures_bind]
    exact part_idle _ ⟨rfl, rfl⟩ fun _ => ⟨rfl, rfl⟩

theorem addPricedColumn_idle (column : ColumnId) (reducedCost : Float) (forced : Bool) :
    (addPricedColumn column reducedCost forced).Yields s fun _ => Idle s := by
  unfold Yields addPricedColumn
  rw [ensures_bind]
  apply (pooledColumn_idle column).yields
  intro stored s' idle
  exact part_idle _ idle fun _ => ⟨rfl, rfl⟩

theorem pricingRound_idle (mode : PricingMode) :
    (pricingRound mode).Yields s fun _ => Idle s := by
  unfold Yields pricingRound
  rw [ensures_bind, ensures_run]
  apply yields_of_all
  intro _ priced
  rw [ensures_bind, ensures_get, ensures_bind, ensures_run]
  apply yields_of_all
  intro _ selected
  rw [ensures_bind, ensures_modify]
  exact ⟨rfl, rfl⟩

theorem addCuts_sheds (t : Linked Tree) (node : NodeId) (limit optional : Nat)
    (cuts : List StoredCut) :
    (SeparationRound.addCuts node limit optional cuts).Yields t fun _ t' =>
      Sheds [] [] t.own t'.own := by
  induction cuts generalizing t optional with
  | nil => exact .rfl
  | cons cut rest ih =>
    unfold Yields SeparationRound.addCuts
    split
    · exact .rfl
    · rw [ensures_bind, ensures_get]
      split
      · exact ih t optional
      · rw [ensures_bind]
        apply (addRow_sheds t node cut.row).yields
        intro _ t' added
        rw [ensures_bind]
        apply (ih t' _).yields
        intro _ _ more
        exact added.trans more

theorem apply_sheds (t : Linked (SeparationRound × Tree)) (node : NodeId) (limit : Nat) :
    (SeparationRound.apply node limit).Yields t fun _ t' => Sheds [] [] t.own.2 t'.own.2 := by
  unfold Yields SeparationRound.apply
  rw [ensures_bind, ensures_get]
  dsimp only
  rw [ensures_bind, ensures_attempt]
  unfold onRight onLeft
  rw [ensures_run]
  apply (addCuts_sheds ⟨t.own.2, t.lp⟩ node limit 0 _).imp
  · intro added t' sheds
    rw [ensures_bind, ensures_run, ensures_onOwn, ensures_modify, ensures_bind, ensures_run]
    apply yields_of_all
    intro _ _
    rw [ensures_bind, ensures_resume_ok, ensures_bind, ensures_emitIf]
    exact sheds
  · intro e t' _
    rw [ensures_bind, ensures_run, ensures_onOwn, ensures_modify, ensures_bind, ensures_run]
    apply yields_of_all
    intro _ _
    rw [ensures_bind, ensures_resume_error]
    trivial

theorem separationRound_sheds (id : NodeId) :
    (separationRound id).Yields s fun _ s' =>
      Sheds [] [] s.tree s'.tree ∧ s'.incumbent = s.incumbent := by
  unfold Yields separationRound
  rw [ensures_bind, ensures_run]
  apply yields_of_all
  intro finding separated
  rw [ensures_bind, ensures_get]
  split
  · exact ⟨.rfl, rfl⟩
  · rw [ensures_bind, ensures_run]
    apply (apply_sheds _ id _).yields
    intro added t sheds
    rw [ensures_bind, ensures_modify]
    exact ⟨sheds, rfl⟩

/-! ### Search -/

theorem installFarkas_idle (proof : Array Float) :
    (installFarkas proof).Yields s fun _ => Idle s :=
  part_idle _ ⟨rfl, rfl⟩ fun _ => ⟨rfl, rfl⟩

theorem reportProgress_idle : reportProgress.Yields s fun _ => Idle s := by
  unfold Yields reportProgress
  rw [ensures_bind, ensures_get, ensures_emitIf]
  exact ⟨rfl, rfl⟩

theorem installSolution_gains (tidy : s.tree.Tidy) (id : NodeId) (primal duals : Array Float)
    (objective : Float) : (installSolution id primal duals objective).Yields s fun _ s' =>
      Gains False s.tree s'.tree ∧ s'.incumbent = s.incumbent := by
  unfold Yields installSolution
  rw [ensures_bind, ensures_run]
  apply yields_of_all
  intro solution lp'
  rw [ensures_bind]
  apply (treePart_yields (s := lpPart.set s lp') (fun _ => Gains False s.tree)
    (raiseBound_gains tidy id objective)).yields
  intro _ _ raised
  exact raised

theorem finishNode_sheds (tidy : s.tree.Tidy) (id : NodeId) :
    (finishNode id).Yields s fun _ s' =>
      Sheds [id] [id] s.tree s'.tree ∧ s'.incumbent = s.incumbent :=
  onTree_yields (fun _ tree => Sheds [id] [id] s.tree tree) (freeNode_sheds tidy id)

/-- The leaves that a search passed over can be cut off, and the one that it took up
cannot. -/
structure Advances (s : Session) (next : Option NodeId) (pruned : List NodeId)
    (s' : Session) : Prop where
  incumbent : s'.incumbent = s.incumbent
  sheds : Sheds pruned (pruned ++ next.toList) s.tree s'.tree
  cut : ∀ id ∈ pruned, s.tree.Exceeds s.incumbent.cutoff id
  taken : ∀ id ∈ next, id ∉ pruned ∧ ∃ entry ∈ s.tree.queue.leaves, entry.node = id ∧
    ¬s.incumbent.cutoff - Double.boundSlack ≤ entry.bound

/-- Another leaf was passed over before. -/
theorem Advances.pass {s₁ s' : Session} {id : NodeId} {next : Option NodeId}
    {pruned : List NodeId} (advances : Advances s₁ next pruned s')
    (incumbent : s₁.incumbent = s.incumbent) (sheds : Sheds [id] [id] s.tree s₁.tree)
    (exceeds : s.tree.Exceeds s.incumbent.cutoff id) : Advances s next (id :: pruned) s' := by
  refine ⟨advances.incumbent.trans incumbent, sheds.trans advances.sheds, ?_, ?_⟩
  · intro other passed
    obtain rfl | passed := List.mem_cons.1 passed
    · exact exceeds
    · obtain ⟨entry, member, name, reaches⟩ := advances.cut other passed
      rw [incumbent] at reaches
      exact ⟨entry, (sheds.mem_queue.1 member).1, name, reaches⟩
  · intro other found
    obtain ⟨open', entry, member, name, below⟩ := advances.taken other found
    obtain ⟨there, apart⟩ := sheds.mem_queue.1 member
    rw [name] at apart
    rw [incumbent] at below
    refine ⟨?_, entry, there, name, below⟩
    rw [List.mem_cons, not_or]
    exact ⟨fun same => apart (List.mem_singleton.2 same), open'⟩

/-- A leaf is taken up that was popped before. -/
private theorem takeUp_advances {s₁ : Session} {id : NodeId}
    (incumbent : s₁.incumbent = s.incumbent) (sheds : Sheds [] [id] s.tree s₁.tree)
    (below : ∃ entry ∈ s.tree.queue.leaves, entry.node = id ∧
      ¬s.incumbent.cutoff - Double.boundSlack ≤ entry.bound) :
    (do
      let _ ← onTree (focusOn id)
      modify fun s => { s with processed := s.processed + 1 }
      reportProgress
      return some id : Action Session (Option NodeId)).Yields s₁ fun next s' =>
        Advances s next [] s' := by
  unfold Yields
  rw [ensures_bind]
  apply (onTree_yields (fun _ => Sheds [] [] s₁.tree) (focusOn_sheds _ id)).yields
  intro _ s₂ focused
  rw [ensures_bind, ensures_modify, ensures_bind]
  unfold reportProgress
  rw [ensures_bind, ensures_get, ensures_emitIf, ensures_pure]
  refine ⟨focused.2.trans incumbent, sheds.trans focused.1, nofun, fun other same => ?_⟩
  cases same
  exact ⟨List.not_mem_nil, below⟩

theorem nextAmong_advances (remaining : Nat) (tidy : s.tree.Tidy) :
    (nextAmong remaining).Yields s fun next s' => ∃ pruned, Advances s next pruned s' := by
  induction remaining generalizing s with
  | zero => exact ⟨[], rfl, .rfl, nofun, nofun⟩
  | succ remaining ih =>
    unfold Yields nextAmong
    rw [ensures_bind]
    apply (treePart_yields _ (popLeaf_sheds tidy)).yields
    intro popped s₁ done
    obtain ⟨⟨sheds, queued⟩, incumbent⟩ := done
    cases popped with
    | none => exact ⟨[], incumbent, sheds, nofun, nofun⟩
    | some id =>
      obtain ⟨entry, member, name⟩ := queued id rfl
      dsimp only
      rw [ensures_bind]
      apply yields_read.2
      intro node found
      have there : s₁.tree.leafAt id = some (entry.seq, entry.bound) := by
        rw [sheds.leaves, if_neg List.not_mem_nil, ← name]
        exact tidy.queued entry member
      -- the queue and the node agree on the bound
      have bound : node.bound = entry.bound := bound_of_leafAt there (node_ok.1 found)
      rw [ensures_bind, ensures_get]
      split
      · rename_i reaches
        have exceeds : s.tree.Exceeds s.incumbent.cutoff id := by
          refine ⟨entry, member, name, ?_⟩
          rw [← bound, ← incumbent]
          exact of_decide_eq_true reaches
        have tidy₁ := sheds.tidy (List.nil_subset _) tidy
        rw [ensures_bind]
        apply (finishNode_sheds tidy₁ id).yields
        intro _ s₂ freed
        rw [ensures_bind, ensures_modify]
        have both : Sheds [id] [id] s.tree s₂.tree :=
          (sheds.trans freed.1).congr (fun _ => Iff.rfl) fun other => by simp
        let s₃ : Session := { s₂ with pruned := s₂.pruned + 1 }
        have later := ih (s := s₃) (both.tidy (List.Subset.refl _) tidy)
        apply later.yields
        intro next s' done
        obtain ⟨pruned, advances⟩ := done
        exact ⟨id :: pruned, advances.pass (freed.2.trans incumbent) both exceeds⟩
      · rename_i below
        have below : ¬s.incumbent.cutoff - Double.boundSlack ≤ entry.bound := by
          rw [← bound, ← incumbent]
          exact fun reaches => below (decide_eq_true reaches)
        apply (takeUp_advances incumbent sheds ⟨entry, member, name, below⟩).yields
        intro next s' advances
        exact ⟨[], advances⟩

theorem nextNode_advances (tidy : s.tree.Tidy) :
    nextNode.Yields s fun next s' => ∃ pruned, Advances s next pruned s' := by
  unfold Yields nextNode
  rw [ensures_bind, ensures_get]
  exact nextAmong_advances _ tidy

/-- A solution is taken over if its objective is better by more than rounding. -/
theorem update_lowers (incumbent : Incumbent) (solution : Array Float) (objective : Float) :
    (Incumbent.update solution objective).Yields incumbent fun better incumbent' =>
      incumbent.Lowers incumbent' ∧ if better then incumbent'.objective = objective
        else incumbent' = incumbent := by
  unfold Yields Incumbent.update
  rw [ensures_modifyGet]
  by_cases better : incumbent.improvedBy objective = true
  · rw [if_pos better]
    exact ⟨.inr (of_decide_eq_true better), rfl⟩
  · rw [if_neg better]
    exact ⟨.inl rfl, rfl⟩

/-- Only a better solution closes leaves, all of which it cuts off. -/
theorem reportSolution_sheds (tidy : s.tree.Tidy) (solution : Array Float) (objective : Float) :
    (reportSolution solution objective).Yields s fun _ s' => s.incumbent.Lowers s'.incumbent ∧
      ∃ pruned, Sheds pruned pruned s.tree s'.tree ∧
        ∀ id ∈ pruned, s.tree.Exceeds s'.incumbent.cutoff id := by
  unfold Yields reportSolution
  rw [ensures_bind, ensures_run]
  apply (update_lowers s.incumbent solution objective).yields
  intro better incumbent' taken
  obtain ⟨lowers, taken⟩ := taken
  cases better with
  | true =>
    have improved : incumbent'.objective = objective := taken
    rw [if_pos rfl, ensures_bind]
    let s₁ : Session := { s with incumbent := incumbent' }
    let Cuts (tree : Tree) : Prop := ∃ pruned, Sheds pruned pruned s.tree tree ∧
      ∀ id ∈ pruned, s.tree.Exceeds objective id
    apply (onTree_yields (s := s₁) (fun _ => Cuts) (pruneLeaves_sheds tidy objective)).yields
    intro leaves s₂ done
    obtain ⟨cuts, same⟩ := done
    have same : s₂.incumbent = incumbent' := same
    rw [ensures_bind, ensures_modify, ensures_bind, ensures_get, ensures_bind,
      ensures_emitIf, ensures_pure]
    dsimp only
    rw [same]
    unfold Incumbent.cutoff
    rw [improved]
    exact ⟨lowers, cuts⟩
  | false =>
    have kept : incumbent' = s.incumbent := taken
    rw [kept]
    exact ⟨.inl rfl, [], .rfl, nofun⟩

/-! ### Creation -/

/-- A new leaf is queued after it was written to. -/
theorem insertLeaf_gains {before created : Tree} {id : NodeId}
    (buds : Creates before created (Buds id before created))
    (written : Sheds [] [] created s.tree) :
    (treePart.run (insertLeaf id)).Yields s fun _ s' =>
      Creates before s'.tree (before.Tidy → Gains True before s'.tree) ∧
        s'.incumbent = s.incumbent := by
  apply (treePart_yields _ (insertLeaf_enqueues s.tree id)).yields
  intro _ s' done
  obtain ⟨⟨enqueues, nodes⟩, incumbent⟩ := done
  have slots : s'.tree.nodes.slots.size = created.nodes.slots.size := by
    rw [nodes, written.slots]
  refine ⟨⟨slots ▸ buds.slots, fun sound => ?_, fun sound fits tidy => ?_⟩, incumbent⟩
  · rw [nodes]
    exact written.sound (buds.sound sound)
  · have fits' : created.nodes.Fits := by
      unfold SlotTable.Fits at fits ⊢
      rw [← slots]
      exact fits
    obtain ⟨_, plants⟩ := (buds.fits sound fits').plants tidy written enqueues
    exact .of_plants plants tidy

theorem createChild_gains (parent : NodeId) (basis : BasisId) (changes : List BoundChange) :
    (createChild parent basis changes).Yields s fun _ s' =>
      Creates s.tree s'.tree (s.tree.Tidy → Gains True s.tree s'.tree) ∧
        s'.incumbent = s.incumbent := by
  unfold Yields createChild createLeaf
  rw [ensures_bind]
  apply (onTree_yields (fun id tree => Creates s.tree tree (Buds id s.tree tree))
    (createNode_buds _ _ basis)).yields
  intro child s₁ done
  obtain ⟨buds, incumbent⟩ := done
  rw [ensures_bind]
  let before (_ : List BoundChange) (s' : Session) : Prop :=
    Sheds [] [] s₁.tree s'.tree ∧ s'.incumbent = s.incumbent
  have step (change : BoundChange) (rest : List BoundChange) (s₂ : Session)
      (reached : before (change :: rest) s₂) :
      (treePart.run (addDomainChange child change)).Yields s₂ fun _ => before rest := by
    apply (treePart_yields (fun _ => Sheds [] [] s₂.tree)
      (addDomainChange_sheds s₂.tree child change)).yields
    intro _ _ done
    exact ⟨reached.1.trans done.1, done.2.trans reached.2⟩
  have start : before changes s₁ := ⟨.rfl, incumbent⟩
  apply (ensures_forM before step changes start).yields
  intro _ s₂ written
  rw [ensures_bind]
  apply (insertLeaf_gains buds written.1).yields
  intro _ _ done
  exact ⟨done.1, done.2.trans written.2⟩

theorem createChildren_gains (parent : NodeId) (basis : BasisId)
    (children : List (List BoundChange)) :
    (createChildren parent basis children).Yields s fun _ s' =>
      Creates s.tree s'.tree (s.tree.Tidy → Gains True s.tree s'.tree) ∧
        s'.incumbent = s.incumbent := by
  induction children generalizing s with
  | nil => exact ⟨⟨Nat.le_refl _, fun sound => sound, fun _ _ tidy => .rfl tidy⟩, rfl⟩
  | cons changes rest ih =>
    unfold Yields createChildren
    rw [ensures_bind]
    apply (createChild_gains parent basis changes).yields
    intro child s₁ one
    obtain ⟨one, incumbent₁⟩ := one
    rw [ensures_bind]
    apply ih.yields
    intro _ s₂ others
    obtain ⟨others, incumbent₂⟩ := others
    refine ⟨⟨one.slots.trans others.slots, fun sound => others.sound (one.sound sound),
      fun sound fits tidy => ?_⟩, incumbent₂.trans incumbent₁⟩
    have fits₁ : s₁.tree.nodes.Fits := others.slots.trans fits
    have born := one.fits sound fits₁ tidy
    exact born.trans (others.fits (one.sound sound) fits born.tidy)

/-- A branching closes its leaf before it creates others. -/
theorem branch_gains (id : NodeId) (children : List (List BoundChange)) :
    (branch id children).Yields s fun _ s' => s'.incumbent = s.incumbent ∧
      ∃ solved, Sheds [id] [id] s.tree solved ∧
        Creates solved s'.tree (solved.Tidy → Gains True solved s'.tree) := by
  unfold Yields branch
  split
  · trivial
  · change (onTree (promote id) >>= _).Ensures s _ _
    rw [ensures_bind]
    apply (onTree_yields (fun _ => Sheds [id] [id] s.tree) (promote_sheds _ id)).yields
    intro kind s₁ done
    obtain ⟨solved, incumbent⟩ := done
    rw [ensures_bind, ensures_emitIf, ensures_bind, ensures_run]
    apply yields_of_all
    intro basis lp₁
    let s₂ : Session := { s₁ with lp := lp₁ }
    rw [ensures_bind, ensures_attempt]
    apply (createChildren_gains (s := s₂) id basis children).imp
    · intro ids s₃ done
      obtain ⟨gains, incumbent'⟩ := done
      rw [ensures_bind, ensures_run]
      apply yields_of_all
      intro _ lp₂
      rw [ensures_resume_ok]
      exact ⟨incumbent'.trans incumbent, s₁.tree, solved, gains⟩
    · intro e s₃ _
      rw [ensures_bind, ensures_run]
      apply yields_of_all
      intro _ lp₂
      trivial

theorem adoptRows_sheds (root : NodeId) (rows : List RowId) :
    (adoptRows root rows).Yields s fun _ s' =>
      Sheds [] [] s.tree s'.tree ∧ s'.incumbent = s.incumbent := by
  let before (_ : List RowId) (s' : Session) : Prop :=
    Sheds [] [] s.tree s'.tree ∧ s'.incumbent = s.incumbent
  have start : before rows s := ⟨.rfl, rfl⟩
  refine ensures_forM before ?_ rows start
  intro row rest s₁ reached
  obtain ⟨written, incumbent⟩ := reached
  rw [ensures_bind]
  apply (onTree_yields (fun _ => Sheds [] [] s₁.tree) (addRow_sheds _ root row)).yields
  intro _ s₂ done
  rw [ensures_run]
  apply yields_of_all
  intro _ lp'
  exact ⟨written.trans done.1, done.2.trans incumbent⟩

theorem start_gains :
    start.Yields s fun _ s' => Creates s.tree s'.tree (s.tree.Tidy → Gains True s.tree s'.tree) ∧
      s'.incumbent = s.incumbent := by
  unfold Yields start
  rw [ensures_bind, ensures_get, ensures_bind, ensures_run]
  apply yields_of_all
  intro _ lp₁
  rw [ensures_bind, ensures_run]
  apply yields_of_all
  intro _ lp₂
  rw [ensures_bind, ensures_run]
  apply yields_of_all
  intro basis lp₃
  let s₁ : Session := { s with lp := lp₃ }
  rw [ensures_bind, ensures_attempt]
  apply (onTree_yields (s := s₁) (fun id tree => Creates s.tree tree (Buds id s.tree tree))
    (createRoot_buds _ basis)).imp
  · intro root s₂ done
    obtain ⟨buds, incumbent₂⟩ := done
    rw [ensures_bind, ensures_run]
    apply yields_of_all
    intro _ lp₄
    let s₃ : Session := { s₂ with lp := lp₄ }
    rw [ensures_bind, ensures_resume_ok, ensures_bind]
    apply (onTree_yields (s := s₃) (fun _ => Sheds [] [] s₂.tree) (focusOn_sheds _ root)).yields
    intro _ s₄ done
    obtain ⟨focused, incumbent₄⟩ := done
    rw [ensures_bind]
    apply (adoptRows_sheds root s.lp.loadedRows).yields
    intro _ s₅ done
    obtain ⟨adopted, incumbent₅⟩ := done
    rw [ensures_bind]
    apply (insertLeaf_gains buds (focused.trans adopted)).yields
    intro _ s₆ done
    obtain ⟨gains, incumbent₆⟩ := done
    rw [ensures_bind, ensures_get, ensures_bind, ensures_emitIf, ensures_pure]
    exact ⟨gains, incumbent₆.trans (incumbent₅.trans (incumbent₄.trans incumbent₂))⟩
  · intro e s₂ _
    rw [ensures_bind, ensures_run]
    apply yields_of_all
    intro _ _
    trivial

end Session

end BranchCutPrice
