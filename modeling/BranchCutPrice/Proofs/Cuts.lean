import BranchCutPrice.Proofs.Content
import BranchCutPrice.Proofs.Rounds

/-!
The end of a separation round. Cuts that are added go through the tree, so they are
recorded at the focus; the round lets go of all its cuts whatever happens.
-/

namespace BranchCutPrice.SeparationRound

open BranchCutPrice.Action Relaxation

variable {owed : Holdings}

theorem addCuts_reaches {s : Linked Tree} (settled : Settled s owed) (node : NodeId)
    (limit optional : Nat) (cuts : List StoredCut) :
    (addCuts node limit optional cuts).Reaches s fun s' =>
      Settled s' owed ∧ Moves {.plain} s.desk s'.desk := by
  induction cuts generalizing s optional with
  | nil => exact ⟨settled, .rfl⟩
  | cons cut rest ih =>
    unfold Reaches addCuts
    split
    · exact ⟨settled, .rfl⟩
    · rw [ensures_bind, ensures_get]
      split
      · exact ih settled optional
      · rw [ensures_bind]
        apply (Tree.addRow_reaches settled node cut.row).imp
        · intro _ s' added
          rw [ensures_bind]
          apply (ih added.1 _).imp
          · intro _ _ done
            exact ⟨done.1, added.2.trans done.2⟩
          · intro _ _ refused
            exact ⟨refused.1, added.2.trans refused.2⟩
        · intro _ _ refused
          exact refused

/-- The tree beside a round. -/
def treeBeside (s : Linked (SeparationRound × Tree)) : Linked Tree :=
  ⟨s.own.2, s.lp⟩

variable {s : Linked (SeparationRound × Tree)}

/-- The round was emptied beside a tree, and its cuts were released. -/
structure Closes (t : Linked Tree) (s' : Linked (SeparationRound × Tree)) : Prop where
  emptied : s'.own.1 = .empty
  tree : s'.own.2 = t.own
  still : Still t.lp s'.lp

theorem Closes.desk {t : Linked Tree} {s' : Linked (SeparationRound × Tree)}
    (closes : Closes t s') : (treeBeside s').desk = t.desk := by
  unfold treeBeside Linked.desk
  rw [closes.tree, closes.still.loadedRows]

/-- A round lets go of its cuts in whatever order they stand. -/
private theorem close_ensures (settled : Settled s owed) {cuts : List StoredCut}
    (same : (cuts.map StoredCut.row).Perm s.own.1.rows) :
    (do
      onLeft (onOwn (modify fun round => { round with cuts := cuts }))
      onLeft clear : Action (Linked (SeparationRound × Tree)) Unit).Ensures s
      (fun _ s' => Settled s' owed ∧ Closes (treeBeside s) s')
      (fun _ _ => False) := by
  have sorted : Settled (Linked.mk ({ s.own.1 with cuts := cuts }, s.own.2) s.lp) owed := by
    apply settled.congr
    have rows : (({ s.own.1 with cuts := cuts } : SeparationRound).rows : Multiset RowId) =
        s.own.1.rows := Multiset.coe_eq_coe.2 same
    exact congrArg (fun rows => Holdings.ofRows rows + Holder.holdings s.own.2) rows
  unfold onLeft
  rw [ensures_bind, ensures_run, ensures_onOwn, ensures_modify]
  have cleared (owed : Holdings)
      (left : Settled (Linked.mk { s.own.1 with cuts := cuts } s.lp) owed) :
      clear.Ensures (Linked.mk { s.own.1 with cuts := cuts } s.lp)
        (fun _ t => Settled t owed ∧ t.own = .empty ∧ Still s.lp t.lp)
        (fun _ t => Settled t owed ∧ False) := by
    exact Completes.leads (clear_ensures left) fun _ _ done => done
  apply (onLeft_frames.ensures sorted cleared).imp
  · intro _ s' done
    obtain ⟨settled', t, rfl, emptied, still⟩ := done
    exact ⟨settled', emptied, rfl, still⟩
  · intro _ s' done
    obtain ⟨_, t, _, no⟩ := done
    exact no

/-- What the cuts that are added come to is what the round closes beside. -/
theorem apply_closes {node : NodeId} {limit : Nat}
    {done : Nat → Linked Tree → Prop} {refused : Error → Linked Tree → Prop}
    (adds :
      (addCuts node limit 0 (Ranking.sort StoredCut.before s.own.1.cuts)).Ensures (treeBeside s)
        (fun count t => Settled t (owed + Holder.holdings s.own.1) ∧ done count t)
        (fun e t => Settled t (owed + Holder.holdings s.own.1) ∧ refused e t)) :
    (apply node limit).Ensures s
      (fun count s' => Settled s' owed ∧ ∃ t, done count t ∧ Closes t s')
      (fun e s' => Settled s' owed ∧ ∃ t, refused e t ∧ Closes t s') := by
  unfold apply
  rw [ensures_bind, ensures_get]
  dsimp only
  rw [ensures_bind, ensures_attempt]
  have sorted := (Ranking.sort_perm StoredCut.before s.own.1.cuts).map StoredCut.row
  unfold onRight
  rw [ensures_run]
  apply adds.imp
  all_goals
    intro _ t ended
    obtain ⟨right, did⟩ := ended
    have closed := ensures_bind.1 (close_ensures right.of_right sorted)
    rw [ensures_bind]
    apply Completes.leads closed
    intro _ _ cleared
    rw [ensures_bind]
    apply Completes.leads cleared
    rintro _ s'' ⟨settled'', closes⟩
    simp only [ensures_bind, ensures_resume_ok, ensures_resume_error, ensures_emitIf, ensures_pure]
    exact ⟨settled'', t, did, closes⟩

/-- What the cuts that are added come to is what the end of the round comes to. -/
theorem apply_ensures {node : NodeId} {limit : Nat}
    {done : Nat → Desk → Prop} {refused : Error → Desk → Prop}
    (adds :
      (addCuts node limit 0 (Ranking.sort StoredCut.before s.own.1.cuts)).Ensures (treeBeside s)
        (fun count t => Settled t (owed + Holder.holdings s.own.1) ∧ done count t.desk)
        (fun e t => Settled t (owed + Holder.holdings s.own.1) ∧ refused e t.desk)) :
    (apply node limit).Ensures s
      (fun count s' => Settled s' owed ∧ done count (treeBeside s').desk)
      (fun e s' => Settled s' owed ∧ refused e (treeBeside s').desk) := by
  apply (apply_closes adds).imp
  all_goals
    intro _ s' closed
    obtain ⟨settled', t, did, closes⟩ := closed
    rw [closes.desk]
    exact ⟨settled', did⟩

theorem apply_reaches (settled : Settled s owed) (node : NodeId) (limit : Nat) :
    (apply node limit).Reaches s fun s' =>
      Settled s' owed ∧ Moves {.plain} (treeBeside s).desk (treeBeside s').desk :=
  apply_ensures (addCuts_reaches settled.right node limit 0 _)

end BranchCutPrice.SeparationRound
