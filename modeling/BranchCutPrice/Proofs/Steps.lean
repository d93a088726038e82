import BranchCutPrice.Proofs.World

/-!
A step of the world is one call, successful or refused. It keeps the world settled and
every tree shaped, and it makes only certain moves on each tree.
-/

namespace BranchCutPrice

open BranchCutPrice.Action Relaxation

/-! ### Calls -/

inductive Call (ι : Type) where
  | client (call : ClientCall)
  | tree (p : ι) (call : TreeCall)
  | rowPool (p : ι) (call : RowPoolCall)
  | cutPool (p : ι) (call : CutPoolCall)
  | cutRound (p : ι) (call : CutRoundCall)
  /-- The pool at one place hands cuts to the round at another one. -/
  | separate (p q : ι)
  /-- The round at one place adds its cuts to the tree at another one. -/
  | applyCuts (p q : ι) (node : NodeId) (limit : Nat)
  | session (call : SessionCall)

variable {ι : Type} [DecidableEq ι] [Inhabited ι]

namespace Call

open World

def perform : Call ι → Action (World ι) Unit
  | client call => clientPart.run call.perform
  | tree p call => (treeAt p).run call.perform
  | rowPool p call => (rowPoolAt p).run call.perform
  | cutPool p call => (cutPoolAt p).run call.perform
  | cutRound p call => (cutRoundAt p).run call.perform
  | separate p q => (separating p q).run (discard CutPool.separate)
  | applyCuts p q node limit => (applying p q).run (discard (SeparationRound.apply node limit))
  | session call => sessionPart.run call.perform

/-- The client releases only what it holds itself. -/
def Permitted (w : World ι) : Call ι → Prop
  | client call => call.Permitted w.client
  | _ => True

/-- A search is started while its tree is empty. -/
def Timely (w : World ι) : Call ι → Prop
  | session call => call.Timely w.session
  | _ => True

instance (w : World ι) : (call : Call ι) → Decidable (call.Permitted w)
  | client call => inferInstanceAs (Decidable (call.Permitted w.client))
  | tree _ _ | rowPool _ _ | cutPool _ _ | cutRound _ _ | separate _ _ | applyCuts _ _ _ _
  | session _ => isTrue trivial

instance (w : World ι) : (call : Call ι) → Decidable (call.Timely w)
  | session call => inferInstanceAs (Decidable (call.Timely w.session))
  | client _ | tree _ _ | rowPool _ _ | cutPool _ _ | cutRound _ _ | separate _ _
  | applyCuts _ _ _ _ => isTrue trivial

/-- The columns that a call loses sight of. -/
def dropped (w : World ι) : Call ι → Multiset ColumnId
  | session call => call.dropped w.session
  | _ => 0

/-- The kinds of moves that a call makes on the tree at a place. -/
def deeds (w : World ι) (q : ι) : Call ι → Set Deed
  | client call => if call.editsRows ∧ (w.trees q).focus ≠ none then {.reload} else {.plain}
  | tree p call => if q = p then call.deeds else {.reload}
  | applyCuts _ p _ _ => if q = p then {.plain} else {.reload}
  | session call => if q = default then call.deeds w.session else {.reload}
  | _ => {.plain}

/-- No call both creates and removes nodes. -/
theorem deeds_oneWay (call : Call ι) (w : World ι) (q : ι) :
    .fell ∉ call.deeds w q ∨ .sprout ∉ call.deeds w q := by
  cases call with
  | client call | applyCuts =>
    simp only [deeds]
    split <;> simp
  | tree p call =>
    simp only [deeds]
    split
    · exact call.deeds_oneWay
    · simp
  | session call =>
    simp only [deeds]
    split
    · exact call.deeds_oneWay w.session
    · simp
  | rowPool | cutPool | cutRound | separate => simp [deeds]

end Call

/-! ### Steps -/

variable [Fintype ι]

/-- A call and what it leads to, whether it is refused or not. -/
structure Step (call : Call ι) (w w' : World ι) : Prop where
  performed : (call.perform w).state = w'
  permitted : call.Permitted w
  roomy : w'.Roomy

namespace Call

open World

variable {w : World ι} {owed : Holdings}

theorem perform_reaches (call : Call ι) (kept : w.Kept owed) (permitted : call.Permitted w) :
    call.perform.Reaches w fun w' => Bereft w' owed (call.dropped w) (call.Timely w) ∧
      ∀ q, Moves (call.deeds w q) (w.desk q) (w'.desk q) := by
  have whole {act : Action (World ι) Unit} (none : call.dropped w = 0)
      (keeps : act.Reaches w fun w' => Settled w' owed ∧
        ∀ q, Moves (call.deeds w q) (w.desk q) (w'.desk q)) :
      act.Reaches w fun w' => Bereft w' owed (call.dropped w) (call.Timely w) ∧
        ∀ q, Moves (call.deeds w q) (w.desk q) (w'.desk q) := by
    apply keeps.imp
    all_goals
      intro _ _ done
      rw [none]
      exact ⟨done.1.bereft _, done.2⟩
  -- what happens beside the trees makes no moves
  have still {act : Action (World ι) Unit} (none : call.dropped w = 0)
      (keeps : act.Reaches w fun w' => Settled w' owed ∧ ∀ q, w'.desk q = w.desk q) :
      act.Reaches w fun w' => Bereft w' owed (call.dropped w) (call.Timely w) ∧
        ∀ q, Moves (call.deeds w q) (w.desk q) (w'.desk q) := by
    apply whole none
    apply keeps.imp
    all_goals
      intro _ _ done
      refine ⟨done.1, fun q => ?_⟩
      rw [done.2]
      exact .rfl
  cases call with
  | client call => exact whole rfl (clientPart_reaches call kept permitted)
  | tree p call => exact whole rfl (treeAt_reaches p call kept.settled (kept.shaped p))
  | rowPool p call =>
    exact still rfl (beside_reaches (rowPoolAt_frames p) (fun _ _ => rfl) kept.settled
      fun _ inside => call.perform_reaches inside)
  | cutPool p call =>
    exact still rfl (beside_reaches (cutPoolAt_frames p) (fun _ _ => rfl) kept.settled
      fun _ inside => call.perform_reaches inside)
  | cutRound p call =>
    exact still rfl (beside_reaches (cutRoundAt_frames p) (fun _ _ => rfl) kept.settled
      fun _ inside => call.perform_reaches inside)
  | separate p q =>
    exact still rfl (beside_reaches (separating_frames p q) (fun _ _ => rfl) kept.settled
      fun _ inside => discard_reaches.2 (CutPool.separate_reaches inside))
  | applyCuts p q node limit => exact whole rfl (applying_reaches p q node limit kept.settled)
  | session call =>
    have performed (owed : Holdings) (inside : Settled w.session owed) :=
      call.perform_reaches inside (kept.shaped default) kept.roomy.lp.bases
        (kept.roomy.nodes default)
    apply (sessionPart_frames.bereft kept.settled performed).imp
    all_goals
      intro _ w' done
      obtain ⟨bereft, s, rfl, moves⟩ := done
      exact ⟨bereft, moves_update rfl moves⟩

end Call

namespace Step

variable {call : Call ι} {w w' : World ι} {owed : Holdings}

omit [Fintype ι] in
theorem tree {p : ι} {call : TreeCall} (step : Step (.tree p call) w w') :
    w'.trees p = (call.perform ⟨w.trees p, w.lp⟩).state.own := by
  rw [← step.performed]
  exact Function.update_self p _ w.trees

omit [Fintype ι] in
theorem session {call : SessionCall} (step : Step (.session call) w w') :
    w'.session = (call.perform w.session).state := by
  rw [← step.performed]
  exact World.session_set w _

theorem kept (step : Step call w w') (kept : w.Kept owed) :
    ∃ lost, w'.Kept (owed + lost) ∧ lost.columns = call.dropped w ∧ lost.bases = 0 ∧
      (call.Timely w → lost.rows = 0) := by
  have reached := reaches_iff.1 (call.perform_reaches kept step.permitted)
  rw [step.performed] at reached
  obtain ⟨⟨lost, settled, columns, bases, rows⟩, moves⟩ := reached
  refine ⟨lost, ⟨settled, fun q => ?_, step.roomy⟩, columns, bases, rows⟩
  exact (moves q).shaped (kept.shaped q) (step.roomy.nodes q).fits

theorem moves (step : Step call w w') (kept : w.Kept owed) (q : ι) :
    Moves (call.deeds w q) (w.desk q) (w'.desk q) := by
  have reached := reaches_iff.1 (call.perform_reaches kept step.permitted)
  rw [step.performed] at reached
  exact reached.2 q

end Step

end BranchCutPrice
