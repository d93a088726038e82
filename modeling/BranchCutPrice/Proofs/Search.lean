import BranchCutPrice.Proofs.Focus
import BranchCutPrice.Proofs.Growth
import BranchCutPrice.Proofs.Promotion
import BranchCutPrice.Proofs.Removal
import BranchCutPrice.Proofs.Session
import BranchCutPrice.Session.Search

/-!
The steps of a search keep the session settled. Only a start that comes too late captures
rows that it does not release.
-/

namespace BranchCutPrice.Session

open BranchCutPrice.Action Relaxation

variable {s : Session} {owed : Holdings}

/-- An operation on the tree alone. -/
theorem treePart_reaches {α : Type} {act : Action Tree α} (settled : Settled s owed)
    (touches : act.Reaches s.tree (Tree.Touched s.tree)) :
    (treePart.run act).Reaches s fun s' => Settled s' owed ∧ Moves {.plain} s.desk s'.desk := by
  have reached := onTree_ensures settled fun _ inside => Tree.onOwn_reaches inside touches
  exact reached

/-- An operation on the relaxation alone that keeps the loaded rows. -/
theorem lpPart_ensures {α : Type} {act : Action Relaxation α} {owed' : α → Holdings}
    (keeps : act.Ensures s.lp
      (fun a lp' => lp'.Balanced (owed' a + Ledger.held s) ∧ lp'.loadedRows = s.lp.loadedRows)
      (fun _ _ => False)) :
    (lpPart.run act).Ensures s (fun a s' => Settled s' (owed' a) ∧ s'.desk = s.desk)
      (fun _ _ => False) := by
  rw [ensures_run]
  apply keeps.imp
  · intro _ lp' done
    exact ⟨done.1, congrArg s.tree.desk done.2⟩
  · intro _ _ no
    exact no

theorem snapshotBasis_settled (settled : Settled s owed) (roomy : s.lp.bases.table.Roomy) :
    (lpPart.run snapshotBasis).Ensures s
      (fun basis s' => Settled s' (owed + .ofBases {basis}) ∧ s'.desk = s.desk)
      (fun _ _ => False) := by
  apply lpPart_ensures
  apply (snapshotBasis_ensures settled roomy).imp
  · intro basis lp' taken
    rw [add_right_comm]
    exact taken
  · intro _ _ no
    exact no

theorem releaseBasis_settled {basis : BasisId} (settled : Settled s (owed + .ofBases {basis})) :
    (lpPart.run (releaseBasis basis)).Ensures s (fun _ s' => Settled s' owed ∧ s'.desk = s.desk)
      (fun _ _ => False) := by
  have owing : s.lp.Balanced (owed + Ledger.held s + .ofBases {basis}) := by
    rw [add_right_comm]
    exact settled
  apply lpPart_ensures
  apply (releaseBasis_ensures owing).imp
  · intro _ lp' released
    exact ⟨released.1, released.2.loadedRows⟩
  · intro _ _ no
    exact no

theorem releaseRow_settled {row : RowId} (settled : Settled s (owed + .ofRows {row})) :
    (lpPart.run (releaseRow row)).Ensures s (fun _ s' => Settled s' owed ∧ s'.desk = s.desk)
      (fun _ _ => False) := by
  have owing : s.lp.Balanced (owed + Ledger.held s + .ofRows {row}) := by
    rw [add_right_comm]
    exact settled
  apply lpPart_ensures
  apply (releaseRow_ensures owing).imp
  · intro _ lp' released
    exact ⟨released.1, released.2.loadedRows⟩
  · intro _ _ no
    exact no

theorem installSolution_reaches (settled : Settled s owed) (id : NodeId)
    (primal duals : Array Float) (objective : Float) :
    (installSolution id primal duals objective).Reaches s fun s' =>
      Settled s' owed ∧ Moves {.plain} s.desk s'.desk := by
  unfold Reaches installSolution
  rw [ensures_bind]
  apply (lpPart_ensures (installSolution_ensures settled primal duals objective)).imp
  · intro solution s' installed
    obtain ⟨settled', desk⟩ := installed
    rw [ensures_bind, ← desk]
    apply (treePart_reaches settled' (Tree.raiseBound_reaches s'.tree id objective)).imp
    · intro _ _ done
      exact done
    · intro _ _ kept
      exact kept
  · intro _ _ no
    exact no.elim

theorem installFarkas_reaches (settled : Settled s owed) (proof : Array Float) :
    (installFarkas proof).Reaches s fun s' => Settled s' owed ∧ s'.desk = s.desk := by
  apply (lpPart_ensures (installFarkas_ensures settled proof)).imp
  · intro _ _ done
    exact done
  · intro _ _ no
    exact no.elim

theorem finishNode_proceeds (settled : Settled s owed) (shaped : s.desk.Shaped) (id : NodeId) :
    (finishNode id).Proceeds s fun s' => Settled s' owed ∧ Moves {.fell} s.desk s'.desk := by
  have freed (owed : Holdings) (inside : Settled (Linked.mk s.tree s.lp) owed) :
      (Tree.freeNode id).Ensures (Linked.mk s.tree s.lp)
        (fun _ t => Settled t owed ∧ Moves {.fell} s.desk t.desk)
        (fun e t => Settled t owed ∧ Moves {.fell} s.desk t.desk ∧ ¬e.Miscount) := by
    apply (Tree.freeNode_ensures inside shaped id).imp
    · intro _ _ done
      exact done
    · intro _ _ refused
      rw [refused.1]
      exact ⟨inside, .rfl, refused.2.counts⟩
  apply (onTree_ensures settled freed).imp
  · intro _ _ done
    exact done
  · intro _ _ refused
    exact ⟨⟨refused.1, refused.2.1⟩, refused.2.2⟩

/-- Whatever becomes of the incumbent is of no account. -/
theorem update_ensures {solution : Array Float} {objective : Float}
    {done : Bool → Session → Prop} {refused : Error → Session → Prop}
    (onDone : ∀ improved incumbent, done improved { s with incumbent := incumbent }) :
    (incumbentPart.run (Incumbent.update solution objective)).Ensures s done refused := by
  rw [ensures_run]
  unfold Incumbent.update
  rw [ensures_modifyGet]
  exact onDone _ _

theorem reportSolution_proceeds (settled : Settled s owed) (shaped : s.desk.Shaped)
    (solution : Array Float) (objective : Float) :
    (reportSolution solution objective).Proceeds s fun s' =>
      Settled s' owed ∧ Moves {.fell} s.desk s'.desk := by
  unfold Proceeds reportSolution
  rw [ensures_bind]
  apply update_ensures
  intro improved incumbent
  have settled' : Settled { s with incumbent := incumbent } owed := settled
  have pruned (owed : Holdings) (inside : Settled (Linked.mk s.tree s.lp) owed) :
      (Tree.pruneLeaves objective).Ensures (Linked.mk s.tree s.lp)
        (fun _ t => Settled t owed ∧ Moves {.fell} s.desk t.desk)
        (fun e t => Settled t owed ∧ Moves {.fell} s.desk t.desk ∧ ¬e.Miscount) := by
    apply (Tree.pruneLeaves_proceeds inside shaped objective).imp
    · intro _ _ done
      exact done
    · intro _ _ refused
      exact ⟨refused.1.1, refused.1.2, refused.2⟩
  split
  · rw [ensures_bind]
    apply (onTree_ensures settled' pruned).imp
    · intro leaves s' pruned
      rw [ensures_bind, ensures_modify, ensures_bind, ensures_get, ensures_bind, ensures_emitIf]
      exact pruned
    · intro _ _ refused
      exact ⟨⟨refused.1, refused.2.1⟩, refused.2.2⟩
  · exact ⟨settled', .rfl⟩

theorem updateIncumbent_reaches (settled : Settled s owed) (solution : Array Float)
    (objective : Float) :
    (incumbentPart.run (Incumbent.update solution objective)).Reaches s fun s' =>
      Settled s' owed ∧ s'.desk = s.desk :=
  update_ensures fun _ _ => ⟨settled, rfl⟩

/-! ### Taking up a leaf -/

private theorem takeUp_proceeds (settled : Settled s owed) (shaped : s.desk.Shaped)
    (id : NodeId) :
    (onTree (Tree.focusOn id)).Proceeds s fun s' =>
      Settled s' owed ∧ Moves {.plain} s.desk s'.desk := by
  have focused (owed : Holdings) (inside : Settled (Linked.mk s.tree s.lp) owed) :
      (Tree.focusOn id).Reaches (Linked.mk s.tree s.lp) fun t =>
        Settled t owed ∧ Moves {.plain} s.desk t.desk := by
    apply (Tree.focusOn_ensures inside shaped id).imp
    · intro _ _ done
      exact done.1
    · intro _ _ refused
      exact refused.1
  have tallies : (onTree (Tree.focusOn id)).Tallies := by
    intro s
    exact Tree.focusOn_tallies id ⟨s.tree, s.lp⟩
  exact tallies.proceeds (onTree_ensures settled focused)

private theorem popLeaf_proceeds (settled : Settled s owed) :
    (treePart.run Tree.popLeaf).Proceeds s fun s' =>
      Settled s' owed ∧ Moves {.plain} s.desk s'.desk := by
  have tallies : (treePart.run Tree.popLeaf).Tallies := by
    intro s
    exact Tree.popLeaf_tallies s.tree
  exact tallies.proceeds (treePart_reaches settled (Tree.popLeaf_reaches s.tree))

/-- Either way the moves of the tree go on from those made before. -/
theorem nextAmong_proceeds (remaining : Nat) (settled : Settled s owed) (shaped : s.desk.Shaped) :
    (nextAmong remaining).Proceeds s fun s' =>
      Settled s' owed ∧ Moves {.plain, .fell} s.desk s'.desk := by
  induction remaining generalizing s with
  | zero => exact ⟨settled, .rfl⟩
  | succ remaining ih =>
    unfold Proceeds nextAmong
    rw [ensures_bind]
    apply (popLeaf_proceeds settled).imp
    · intro popped s' reached
      obtain ⟨settled', moves⟩ := reached
      have plain : Moves {.plain, .fell} s.desk s'.desk := moves.mono (by simp)
      have shaped' := moves.shaped_of_shrinking (by simp) shaped
      cases popped with
      | none => exact ⟨settled', plain⟩
      | some id =>
        dsimp only
        rw [ensures_bind]
        apply ensures_read.2
        constructor
        · intro node _
          rw [ensures_bind, ensures_get]
          split
          · rw [ensures_bind]
            apply (finishNode_proceeds settled' shaped' id).imp
            · intro _ s'' freed
              rw [ensures_bind, ensures_modify]
              have shaped'' := freed.2.shaped_of_shrinking (by simp) shaped'
              have fell := freed.2.mono (show {.fell} ⊆ ({.plain, .fell} : Set Deed) by simp)
              have settled'' : Settled { s'' with pruned := s''.pruned + 1 } owed := freed.1
              apply (ih settled'' shaped'').imp
              · intro _ _ done
                exact ⟨done.1, (plain.trans fell).trans done.2⟩
              · intro _ _ refused
                obtain ⟨kept, counts⟩ := refused
                exact ⟨⟨kept.1, (plain.trans fell).trans kept.2⟩, counts⟩
            · intro _ _ refused
              obtain ⟨kept, counts⟩ := refused
              exact ⟨⟨kept.1, plain.trans (kept.2.mono (by simp))⟩, counts⟩
          · rw [ensures_bind]
            apply (takeUp_proceeds settled' shaped' id).imp
            · intro _ s'' focused
              rw [ensures_bind, ensures_modify, ensures_bind]
              unfold reportProgress
              rw [ensures_bind, ensures_get, ensures_emitIf]
              exact ⟨focused.1, plain.trans (focused.2.mono (by simp))⟩
            · intro _ _ refused
              obtain ⟨kept, counts⟩ := refused
              exact ⟨⟨kept.1, plain.trans (kept.2.mono (by simp))⟩, counts⟩
        · intro e refused
          exact ⟨⟨settled', plain⟩, s'.tree.node_tallies id e refused⟩
    · intro _ _ refused
      obtain ⟨kept, counts⟩ := refused
      exact ⟨⟨kept.1, kept.2.mono (by simp)⟩, counts⟩

theorem nextNode_proceeds (settled : Settled s owed) (shaped : s.desk.Shaped) :
    nextNode.Proceeds s fun s' => Settled s' owed ∧ Moves {.plain, .fell} s.desk s'.desk := by
  unfold Proceeds nextNode
  rw [ensures_bind, ensures_get]
  exact nextAmong_proceeds _ settled shaped

/-! ### Branching -/

/-- What creating children does, one after the other. -/
private abbrev Growing (s s' : Session) (owed : Holdings) : Prop :=
  Settled s' owed ∧ Moves {.plain, .sprout} s.desk s'.desk

theorem createChild_reaches (settled : Settled s owed) (sound : s.tree.nodes.Sound)
    (parent : NodeId) (basis : BasisId) (changes : List BoundChange) :
    (createChild parent basis changes).Reaches s fun s' => Growing s s' owed := by
  have created (owed : Holdings) (inside : Settled (Linked.mk s.tree s.lp) owed) :
      (Tree.createLeaf parent basis).Reaches (Linked.mk s.tree s.lp) fun t =>
        Settled t owed ∧ Moves {.sprout} s.desk t.desk := by
    apply (Tree.createLeaf_ensures inside sound parent basis).imp
    · intro _ _ done
      exact done.1
    · intro _ _ same
      rw [same]
      exact ⟨inside, .rfl⟩
  unfold Reaches createChild
  rw [ensures_bind]
  apply (onTree_ensures settled created).imp
  · intro child s' born
    rw [ensures_bind]
    let before (_ : List BoundChange) (s' : Session) : Prop := Growing s s' owed
    have start : before changes s' := ⟨born.1, born.2.mono (by simp)⟩
    have step (change : BoundChange) (rest : List BoundChange) (s' : Session)
        (reached : before (change :: rest) s') :
        (treePart.run (Tree.addDomainChange child change)).Ensures s' (fun _ => before rest)
          (fun _ s' => Growing s s' owed) := by
      apply (treePart_reaches reached.1 (Tree.addDomainChange_reaches _ child change)).imp
      · intro _ _ done
        exact ⟨done.1, reached.2.trans (done.2.mono (by simp))⟩
      · intro _ _ kept
        exact ⟨kept.1, reached.2.trans (kept.2.mono (by simp))⟩
    apply (ensures_forM before step changes start).imp
    · intro _ s'' reached
      rw [ensures_bind]
      apply (treePart_reaches reached.1 (Tree.insertLeaf_reaches _ child)).imp
      · intro _ _ done
        exact ⟨done.1, reached.2.trans (done.2.mono (by simp))⟩
      · intro _ _ kept
        exact ⟨kept.1, reached.2.trans (kept.2.mono (by simp))⟩
    · intro _ _ kept
      exact kept
  · intro _ _ kept
    exact ⟨kept.1, kept.2.mono (by simp)⟩

theorem createChildren_reaches (settled : Settled s owed) (sound : s.tree.nodes.Sound)
    (parent : NodeId) (basis : BasisId) (children : List (List BoundChange)) :
    (createChildren parent basis children).Reaches s fun s' => Growing s s' owed := by
  induction children generalizing s with
  | nil => exact ⟨settled, .rfl⟩
  | cons changes rest ih =>
    unfold Reaches createChildren
    rw [ensures_bind]
    apply (createChild_reaches settled sound parent basis changes).imp
    · intro child s' grown
      rw [ensures_bind]
      apply (ih grown.1 (grown.2.sound sound)).imp
      · intro _ _ done
        exact ⟨done.1, grown.2.trans done.2⟩
      · intro _ _ kept
        exact ⟨kept.1, grown.2.trans kept.2⟩
    · intro _ _ kept
      exact kept

/-- What branching does to the tree: the node is promoted before its children are created. -/
def Branched (s s' : Session) (id : NodeId) : Prop :=
  ∃ middle : Linked Tree,
    (middle = ⟨s.tree, s.lp⟩ ∨ Tree.Promoted ⟨s.tree, s.lp⟩ middle id) ∧
      Moves {.plain, .sprout} middle.desk s'.desk

theorem branch_grows (settled : Settled s owed) (shaped : s.desk.Shaped)
    (roomy : s.lp.bases.table.Roomy) (id : NodeId) (children : List (List BoundChange)) :
    (branch id children).Reaches s fun s' => Settled s' owed ∧ Branched s s' id := by
  unfold Reaches branch
  split
  · exact ⟨settled, _, .inl rfl, .rfl⟩
  · change (onTree (Tree.promote id) >>= _).Ensures s _ _
    rw [ensures_bind]
    have promoted (owed : Holdings) (inside : Settled (Linked.mk s.tree s.lp) owed) :
        (Tree.promote id).Ensures (Linked.mk s.tree s.lp)
          (fun _ t => Settled t owed ∧ Tree.Promoted ⟨s.tree, s.lp⟩ t id)
          (fun _ t => Settled t owed ∧ t = Linked.mk s.tree s.lp) := by
      apply (Tree.promote_converts inside shaped id).imp
      · intro _ _ done
        exact done
      · intro _ _ same
        rw [same]
        exact ⟨inside, rfl⟩
    apply (onTree_ensures settled promoted).imp
    · intro kind s' promoted
      obtain ⟨settled', promoted⟩ := promoted
      have roomy' : s'.lp.bases.table.Roomy := promoted.still.slots.trans_lt roomy
      rw [ensures_bind, ensures_emitIf, ensures_bind]
      apply (snapshotBasis_settled settled' roomy').imp
      · intro basis s'' taken
        obtain ⟨settled'', desk⟩ := taken
        have sound : s''.tree.nodes.Sound := by
          have same : s''.tree.nodes = s'.tree.nodes := congrArg Desk.nodes desk
          rw [same]
          exact promoted.move.sound shaped.sound
        have ending (result : Except Error (List NodeId)) (t : Session)
            (grown : Growing s'' t (owed + .ofBases {basis})) :
            (do
              lpPart.run (releaseBasis basis)
              Action.resume result).Reaches t fun t => Settled t owed ∧ Branched s t id := by
          unfold Reaches
          rw [ensures_bind]
          apply (releaseBasis_settled grown.1).imp
          · intro _ t' released
            have moves : Moves {.plain, .sprout} s'.desk t'.desk := by
              rw [released.2, ← desk]
              exact grown.2
            cases result with
            | ok => exact ⟨released.1, _, .inr promoted, moves⟩
            | error => exact ⟨released.1, _, .inr promoted, moves⟩
          · intro _ _ no
            exact no.elim
        rw [ensures_bind, ensures_attempt]
        apply (createChildren_reaches settled'' sound id basis children).imp
        · intro ids t grown
          exact ending (.ok ids) t grown
        · intro e t grown
          exact ending (.error e) t grown
      · intro _ _ no
        exact no.elim
    · intro _ s' refused
      refine ⟨refused.1, _, .inl rfl, ?_⟩
      rw [show s'.desk = s.desk from congrArg Linked.desk refused.2]
      exact .rfl

theorem branch_reaches (settled : Settled s owed) (shaped : s.desk.Shaped)
    (roomy : s.lp.bases.table.Roomy) (id : NodeId) (children : List (List BoundChange)) :
    (branch id children).Reaches s fun s' =>
      Settled s' owed ∧ Moves {.plain, .solve, .sprout} s.desk s'.desk := by
  apply (branch_grows settled shaped roomy id children).imp
  all_goals
    intro _ s' done
    obtain ⟨settled', middle, promoted, moves⟩ := done
    refine ⟨settled', .trans ?_ (moves.mono (by simp [Set.insert_subset_iff]))⟩
    obtain rfl | promoted := promoted
    · exact .rfl
    · exact .one promoted.move (by simp)

/-! ### Clearing -/

/-- Without a focus nothing stands in the way of unloading the rows. -/
private theorem unload_reaches (settled : Settled s owed) (loose : s.desk.focus = none) :
    (do
      (linked cutPoolPart).run CutPool.clear
      (linked columnPoolPart).run ColumnPool.clear
      lpPart.run Relaxation.clear : Action Session Unit).Reaches s fun s' =>
        Settled s' owed ∧ Moves {.plain} s.desk s'.desk := by
  unfold Reaches
  rw [ensures_bind]
  apply (beside_reaches cutPool_frames (fun _ _ => rfl) settled fun _ inside =>
    CutPool.clear_reaches inside).imp
  · intro _ s₁ done
    obtain ⟨settled₁, desk₁⟩ := done
    rw [ensures_bind]
    apply (beside_reaches columnPool_frames (fun _ _ => rfl) settled₁ fun _ inside =>
      ColumnPool.clear_reaches inside).imp
    · intro _ s₂ done
      obtain ⟨settled₂, desk₂⟩ := done
      have desk : s₂.desk = s.desk := desk₂.trans desk₁
      rw [ensures_run]
      rw [← desk] at loose ⊢
      apply (clear_ensures settled₂).imp
      · intro _ lp' done
        exact ⟨done.1, .one (.adjust (.inl loose)) (Set.mem_singleton _)⟩
      · intro _ _ no
        exact no.elim
    · intro _ _ kept
      rw [kept.2, desk₁]
      exact ⟨kept.1, .rfl⟩
  · intro _ _ kept
    rw [kept.2]
    exact ⟨kept.1, .rfl⟩

theorem clear_reaches (settled : Settled s owed) (shaped : s.desk.Shaped) :
    clear.Reaches s fun s' => Settled s' owed ∧ Moves {.plain, .fell} s.desk s'.desk := by
  unfold Reaches clear
  rw [ensures_bind]
  have cuts := beside_reaches cuts_frames (fun _ _ => rfl) settled fun _ inside =>
    (SeparationRound.clear_ensures inside).imp (fun _ _ done => ⟨done.1, done.2.2⟩)
      (fun _ _ no => no.elim)
  apply cuts.imp
  · intro _ s₁ done
    obtain ⟨settled₁, desk₁⟩ := done
    rw [ensures_bind]
    have columns := beside_reaches columns_frames (fun _ _ => rfl) settled₁ fun _ inside =>
      (PricingRound.clear_ensures inside).imp (fun _ _ done => ⟨done.1, done.2.2⟩)
        (fun _ _ no => no.elim)
    apply columns.imp
    · intro _ s₂ done
      obtain ⟨settled₂, desk₂⟩ := done
      have desk : s₂.desk = s.desk := desk₂.trans desk₁
      rw [ensures_bind, ← desk]
      rw [← desk] at shaped
      have cleared (owed : Holdings) (inside : Settled (Linked.mk s₂.tree s₂.lp) owed) :
          Tree.clear.Ensures (Linked.mk s₂.tree s₂.lp)
            (fun _ t => Settled t owed ∧ Moves {.fell} s₂.desk t.desk ∧ t.desk.focus = none)
            (fun _ t => Settled t owed ∧ False) := by
        apply (Tree.clear_ensures inside shaped).imp
        · intro _ _ done
          exact ⟨done.1.1, done.1.2, done.2.1⟩
        · intro _ _ no
          exact no.elim
      apply (onTree_ensures settled₂ cleared).imp
      · intro _ s₃ done
        obtain ⟨settled₃, moves, loose⟩ := done
        have fell : Moves {.plain, .fell} s₂.desk s₃.desk := moves.mono (by simp)
        apply (unload_reaches settled₃ loose).imp
        · intro _ _ done
          exact ⟨done.1, fell.trans (done.2.mono (by simp))⟩
        · intro _ _ kept
          exact ⟨kept.1, fell.trans (kept.2.mono (by simp))⟩
      · intro _ _ no
        exact no.2.elim
    · intro _ _ kept
      rw [kept.2, desk₁]
      exact ⟨kept.1, .rfl⟩
  · intro _ _ kept
    rw [kept.2]
    exact ⟨kept.1, .rfl⟩

/-! ### Starting -/

/-- While rows are loaded again at the root, the rest of them is still owed. -/
private structure Adopting (s : Session) (owed : Holdings) (root : NodeId) (rest : List RowId)
    (s' : Session) : Prop where
  settled : Settled s' (owed + .ofRows rest)
  moves : Moves {.plain} s.desk s'.desk
  focus : s'.tree.focus = some root
  leaf : ∃ node basis added, s'.tree.nodes.get? root = some node ∧ node.payload = .leaf basis added
  distinct : (s'.lp.loadedRows ++ rest).Nodup

private theorem Adopting.step {s' : Session} {root : NodeId} {row : RowId} {rest : List RowId}
    (adopting : Adopting s owed root (row :: rest) s') :
    (do
      onTree (Tree.addRow root row)
      lpPart.run (Relaxation.releaseRow row) : Action Session Unit).Ensures s'
      (fun _ => Adopting s owed root rest) (fun _ _ => False) := by
  obtain ⟨settled, moves, focus, ⟨node, basis, rows, found, leaf⟩, distinct⟩ := adopting
  have fresh : row ∉ s'.lp.loadedRows := by
    intro member
    exact (List.nodup_append.1 distinct).2.2 row member row List.mem_cons_self rfl
  have live : s'.lp.rows.contains row = true := by
    apply settled.rows.live
    apply Multiset.mem_add.2
    left
    apply Multiset.mem_add.2
    left
    exact Multiset.mem_add.2 (.inr (Multiset.mem_coe.2 List.mem_cons_self))
  have added (owed : Holdings) (inside : Settled (Linked.mk s'.tree s'.lp) owed) :
      (Tree.addRow root row).Ensures (Linked.mk s'.tree s'.lp)
        (fun _ t => Settled t owed ∧ Moves {.plain} s'.desk t.desk ∧
          t.own = s'.tree.recordRow root row ∧ t.lp.loadedRows = s'.lp.loadedRows ++ [row])
        (fun _ t => Settled t owed ∧ False) := by
    apply (Tree.addRow_ensures inside root row).imp
    · intro _ _ done
      exact ⟨done.1.1, done.1.2, done.2⟩
    · intro _ _ refused
      exact absurd (refused.2 node basis _ focus found leaf live) fresh
  rw [ensures_bind]
  apply (onTree_ensures settled added).imp
  · intro _ s'' done
    obtain ⟨settled', plain, tree, loaded⟩ := done
    change s''.tree = _ at tree
    change s''.lp.loadedRows = _ at loaded
    rw [Tree.recordRow_leaf found leaf row] at tree
    have owing : Settled s'' (owed + .ofRows rest + .ofRows {row}) := by
      rw [add_assoc, ← Holdings.ofRows_add, add_comm (rest : Multiset RowId)]
      exact settled'
    apply (releaseRow_settled owing).imp
    · intro _ t released
      obtain ⟨settled'', desk⟩ := released
      have nodes : t.tree.nodes = s''.tree.nodes := congrArg Desk.nodes desk
      have same : t.lp.loadedRows = s''.lp.loadedRows := congrArg Desk.loaded desk
      refine ⟨settled'', desk ▸ moves.trans plain, ?_, ?_, ?_⟩
      · have kept : t.tree.focus = s''.tree.focus := congrArg Desk.focus desk
        rw [kept, tree]
        exact focus
      · refine ⟨{ node with payload := .leaf basis (rows ++ [row]) }, basis, rows ++ [row], ?_, rfl⟩
        rw [nodes, tree]
        exact (SlotTable.get?_set found _ root).trans (if_pos rfl)
      · rw [same, loaded, List.append_assoc]
        exact distinct
    · intro _ _ no
      exact no
  · intro _ _ no
    exact no.2

private theorem adoptRows_ensures {root : NodeId} (rows : List RowId) {s' : Session}
    (adopting : Adopting s owed root rows s') :
    (adoptRows root rows).Ensures s' (fun _ => Adopting s owed root []) (fun _ _ => False) := by
  let before (rest : List RowId) (s' : Session) : Prop := Adopting s owed root rest s'
  have step (row : RowId) (rest : List RowId) (s' : Session) (reached : before (row :: rest) s') :=
    reached.step
  exact ensures_forM before step rows adopting

/-- A root without rows can always be focused, which leaves no row loaded. -/
private theorem focusOn_ensures {root : NodeId} {rows : List RowId} {node : Node}
    {basis : BasisId} (settled : Settled s (owed + .ofRows rows)) (shaped : s.desk.Shaped)
    (found : s.tree.nodes.get? root = some node) (leaf : node.payload = .leaf basis [])
    (parent : node.parent = none) (distinct : rows.Nodup) :
    (onTree (Tree.focusOn root)).Ensures s (fun _ => Adopting s owed root rows)
      (fun _ _ => False) := by
  have bare : Replays s.tree.nodes root [] := by
    have base := Replays.base found (.inl parent)
    rw [leaf] at base
    exact base
  have focused (owed : Holdings) (inside : Settled (Linked.mk s.tree s.lp) owed) :
      (Tree.focusOn root).Ensures (Linked.mk s.tree s.lp)
        (fun _ t => Settled t owed ∧ Moves {.plain} s.desk t.desk ∧ t.own.focus = some root ∧
          t.lp.loadedRows = [] ∧
          ∃ node', t.own.nodes.get? root = some node' ∧ node'.payload = node.payload)
        (fun _ t => Settled t owed ∧ False) := by
    apply (Tree.focusOn_ensures inside shaped root).imp
    · intro _ t done
      obtain ⟨⟨settled', moves⟩, focus, replays, kept⟩ := done
      exact ⟨settled', moves, focus, replays.unique bare, kept root node found⟩
    · intro _ _ refused
      obtain stale | ⟨again, replays, repeated⟩ := refused.2
      · have live : s.tree.contains root = true := SlotTable.contains_iff.2 ⟨node, found⟩
        rw [live] at stale
        cases stale
      · rw [replays.unique bare] at repeated
        exact absurd List.nodup_nil repeated
  apply (onTree_ensures settled focused).imp
  · intro _ s' done
    obtain ⟨settled', moves, focus, loaded, node', found', payload⟩ := done
    change s'.lp.loadedRows = [] at loaded
    refine ⟨settled', moves, focus, ⟨node', basis, [], found', payload.trans leaf⟩, ?_⟩
    rw [loaded]
    exact distinct
  · intro _ _ no
    exact no.2

/-- The rows become rows of a root that was just created. -/
private theorem adopt_reaches {root : NodeId} {rows : List RowId} {node : Node} {basis : BasisId}
    (settled : Settled s (owed + .ofRows rows)) (shaped : s.desk.Shaped)
    (found : s.tree.nodes.get? root = some node) (leaf : node.payload = .leaf basis [])
    (parent : node.parent = none) (distinct : rows.Nodup) :
    (do
      let _ ← onTree (Tree.focusOn root)
      adoptRows root rows
      treePart.run (Tree.insertLeaf root)
      let session ← get
      Action.emitIf session.settings.verbose
        (.started session.lp.loadedRows.length session.lp.loadedColumns.length)
      return root : Action Session NodeId).Reaches s fun s' =>
        Settled s' owed ∧ Moves {.plain} s.desk s'.desk := by
  unfold Reaches
  rw [ensures_bind]
  apply (focusOn_ensures settled shaped found leaf parent distinct).imp
  · intro _ s₁ adopting
    rw [ensures_bind]
    apply (adoptRows_ensures rows adopting).imp
    · intro _ s₂ adopted
      have settled₂ : Settled s₂ owed := by
        rw [← add_zero owed]
        exact adopted.settled
      rw [ensures_bind]
      apply (treePart_reaches settled₂ (Tree.insertLeaf_reaches _ _)).imp
      · intro _ s₃ done
        rw [ensures_bind, ensures_get, ensures_bind, ensures_emitIf]
        exact ⟨done.1, adopted.moves.trans (done.2.mono (by simp))⟩
      · intro _ _ kept
        exact ⟨kept.1, adopted.moves.trans (kept.2.mono (by simp))⟩
    · intro _ _ no
      exact no.elim
  · intro _ _ no
    exact no.elim

/-- With its basis at hand, a root is created unless there is one. -/
private theorem createRoot_ensures {basis : BasisId} (settled : Settled s owed)
    (shaped : s.desk.Shaped) (live : s.lp.bases.contains basis = true) :
    (onTree (Tree.createRoot basis)).Ensures s
      (fun root s' => Settled s' owed ∧ Moves {.sprout} s.desk s'.desk ∧ s.tree.root = none ∧
        ∃ child, root = (s.tree.nodes.insert child).1 ∧
          s'.tree.nodes = (s.tree.nodes.insert child).2 ∧ child.payload = .leaf basis [] ∧
          child.parent = none)
      (fun _ s' => Settled s' owed ∧ s'.desk = s.desk ∧ s.tree.root ≠ none) := by
  have created (owed : Holdings) (inside : Settled (Linked.mk s.tree s.lp) owed) :
      (Tree.createRoot basis).Ensures (Linked.mk s.tree s.lp)
        (fun id t => Settled t owed ∧ Moves {.sprout} s.desk t.desk ∧ s.tree.root = none ∧
          ∃ child, id = (s.tree.nodes.insert child).1 ∧
            t.own.nodes = (s.tree.nodes.insert child).2 ∧ child.payload = .leaf basis [] ∧
            child.parent = none)
        (fun _ t => Settled t owed ∧ t = Linked.mk s.tree s.lp ∧ s.tree.root ≠ none) := by
    apply (Tree.createRoot_ensures inside shaped.sound basis).imp
    · intro _ _ done
      exact ⟨done.1.1, done.1.2, done.2⟩
    · intro _ _ refused
      obtain ⟨same, reason⟩ := refused
      refine ⟨?_, same, ?_⟩
      · rw [same]
        exact inside
      · obtain rooted | stale := reason
        · exact rooted
        · rw [live] at stale
          cases stale
  apply (onTree_ensures settled created).imp
  · intro _ _ done
    exact done
  · intro _ _ refused
    exact ⟨refused.1, congrArg Linked.desk refused.2.1, refused.2.2⟩

/-- What starting does once the rows are unloaded. -/
private def Started (s s' : Session) (owed : Holdings) (rows : List RowId) : Prop :=
  (s.tree.root = none ∧ Settled s' owed ∧ Moves {.plain, .sprout} s.desk s'.desk) ∨
    (s.tree.root ≠ none ∧ Settled s' (owed + .ofRows rows) ∧ s'.desk = s.desk)

private theorem plant_reaches {rows : List RowId} {basis : BasisId}
    (settled : Settled s (owed + .ofRows rows + .ofBases {basis})) (shaped : s.desk.Shaped)
    (roomy : s.tree.nodes.Roomy) (distinct : rows.Nodup) :
    (do
      let created ← Action.attempt (onTree (Tree.createRoot basis))
      lpPart.run (Relaxation.releaseBasis basis)
      let root ← Action.resume created
      let _ ← onTree (Tree.focusOn root)
      adoptRows root rows
      treePart.run (Tree.insertLeaf root)
      let session ← get
      Action.emitIf session.settings.verbose
        (.started session.lp.loadedRows.length session.lp.loadedColumns.length)
      return root : Action Session NodeId).Reaches s fun s' => Started s s' owed rows := by
  have live : s.lp.bases.contains basis = true := by
    apply settled.bases.live
    apply Multiset.mem_add.2
    exact .inl (Multiset.mem_add.2 (.inr (Multiset.mem_singleton_self basis)))
  unfold Reaches
  rw [ensures_bind, ensures_attempt]
  apply (createRoot_ensures settled shaped live).imp
  · intro root s₁ done
    obtain ⟨settled₁, sprouted, bare, child, rfl, nodes, leaf, parent⟩ := done
    rw [ensures_bind]
    apply (releaseBasis_settled settled₁).imp
    · intro _ s₂ done
      obtain ⟨settled₂, desk⟩ := done
      have fits : (s.tree.nodes.insert child).2.Fits := roomy.fits_insert
      have nodes' : s₂.tree.nodes = (s.tree.nodes.insert child).2 :=
        (congrArg Desk.nodes desk).trans nodes
      have found : s₂.tree.nodes.get? (s.tree.nodes.insert child).1 = some child := by
        rw [nodes']
        exact (SlotTable.get?_insert shaped.sound fits _).trans (if_pos rfl)
      have moves : Moves {.plain, .sprout} s.desk s₂.desk := by
        rw [desk]
        exact sprouted.mono (by simp)
      have shaped₂ : s₂.desk.Shaped := by
        apply moves.shaped shaped
        change s₂.tree.nodes.Fits
        rw [nodes']
        exact fits
      rw [ensures_bind, ensures_resume_ok]
      apply (adopt_reaches settled₂ shaped₂ found leaf parent distinct).mono
      intro s₃ done
      obtain ⟨settled₃, plain⟩ := done
      exact .inl ⟨bare, settled₃, moves.trans (plain.mono (by simp))⟩
    · intro _ _ no
      exact no.elim
  · intro e s₁ refused
    obtain ⟨settled₁, same, rooted⟩ := refused
    rw [ensures_bind]
    apply (releaseBasis_settled settled₁).imp
    · intro _ s₂ done
      rw [ensures_bind, ensures_resume_error]
      exact .inr ⟨rooted, done.1, done.2.trans same⟩
    · intro _ _ no
      exact no.elim

/-- With the rows unloaded beforehand, a search begins anew or not at all. -/
private theorem Started.unloaded {s' t : Session} {rows : List RowId} (shaped : s.desk.Shaped)
    (desk : s'.desk = { s.desk with loaded := [] }) (started : Started s' t owed rows) :
    (s.tree.root = none ∧ Settled t owed ∧ Moves {.plain, .sprout} s.desk t.desk) ∨
      (s.tree.root ≠ none ∧ Settled t (owed + .ofRows rows) ∧ Moves {.reload} s.desk t.desk) := by
  have root : s'.tree.root = s.tree.root := congrArg Desk.root desk
  unfold Started at started
  rw [root, desk] at started
  obtain ⟨bare, settled, moves⟩ | ⟨rooted, settled, same⟩ := started
  · have loose : s.desk.focus = none := by
      cases focus : s.desk.focus with
      | none => rfl
      | some id =>
        obtain ⟨node, found⟩ := shaped.focus id focus
        cases (shaped.stale_of_bare bare id).symm.trans found
    have unloaded : Moves {.plain, .sprout} s.desk { s.desk with loaded := [] } :=
      .one (.adjust (.inl loose)) (by simp)
    exact .inl ⟨bare, settled, unloaded.trans moves⟩
  · refine .inr ⟨rooted, settled, ?_⟩
    rw [same]
    exact .one (.reload []) (Set.mem_singleton _)

private theorem captureLoaded_ensures (settled : Settled s owed) :
    (lpPart.run (captureRows s.lp.loadedRows)).Ensures s
      (fun _ s' => Settled s' (owed + .ofRows s.lp.loadedRows) ∧ s'.tree = s.tree ∧
        Still s.lp s'.lp)
      (fun _ _ => False) := by
  rw [ensures_run]
  apply (captureRows_ensures settled s.lp.loadedRows fun _ member => member).imp
  · intro _ lp' done
    rw [add_right_comm] at done
    exact ⟨done.1, rfl, done.2⟩
  · intro _ _ no
    exact no

private theorem shrinkAll_ensures (settled : Settled s owed) (bases : s.lp.bases.table.Roomy) :
    (lpPart.run (shrinkRows 0)).Ensures s
      (fun _ s' => Settled s' owed ∧ s'.desk = { s.desk with loaded := [] } ∧
        s'.lp.bases.table.Roomy)
      (fun _ _ => False) := by
  rw [ensures_run]
  apply (shrinkRows_ensures settled 0).imp
  · intro _ lp' done
    obtain ⟨settled', rows, slots⟩ := done
    refine ⟨settled', ?_, slots.trans_lt bases⟩
    change s.tree.desk lp'.loadedRows = s.tree.desk []
    rw [rows, List.take_zero]
  · intro _ _ no
    exact no

/-- A search that is started too late unloads the rows and keeps them for good. -/
theorem start_reaches (settled : Settled s owed) (shaped : s.desk.Shaped)
    (bases : s.lp.bases.table.Roomy) (nodes : s.tree.nodes.Roomy) :
    start.Reaches s fun s' =>
      (s.tree.root = none ∧ Settled s' owed ∧ Moves {.plain, .sprout} s.desk s'.desk) ∨
      (s.tree.root ≠ none ∧ Settled s' (owed + .ofRows s.lp.loadedRows) ∧
        Moves {.reload} s.desk s'.desk) := by
  unfold Reaches start
  rw [ensures_bind, ensures_get, ensures_bind]
  apply (captureLoaded_ensures settled).imp
  · intro _ s₁ done
    obtain ⟨settled₁, tree₁, still⟩ := done
    rw [ensures_bind]
    apply (shrinkAll_ensures settled₁ (still.slots.trans_lt bases)).imp
    · intro _ s₂ done
      obtain ⟨settled₂, desk₂, bases₂⟩ := done
      rw [ensures_bind]
      apply (snapshotBasis_settled settled₂ bases₂).imp
      · intro basis s₃ done
        obtain ⟨settled₃, same₃⟩ := done
        have desk₃ : s₃.desk = { s.desk with loaded := [] } := by
          rw [same₃, desk₂]
          change { s₁.tree.desk s₁.lp.loadedRows with loaded := [] } = s.tree.desk []
          rw [tree₁]
          rfl
        have shaped₃ : s₃.desk.Shaped := desk₃ ▸ shaped.reload []
        have nodes₃ : s₃.tree.nodes.Roomy := by
          have same : s₃.tree.nodes = s.tree.nodes := congrArg Desk.nodes desk₃
          rw [same]
          exact nodes
        have distinct : s.lp.loadedRows.Nodup := settled.positions.nodup
        apply (plant_reaches settled₃ shaped₃ nodes₃ distinct).mono
        intro t started
        exact started.unloaded shaped desk₃
      · intro _ _ no
        exact no.elim
    · intro _ _ no
      exact no.elim
  · intro _ _ no
    exact no.elim

end BranchCutPrice.Session
