import BranchCutPrice.Proofs.Client
import BranchCutPrice.Proofs.Search

/-!
The calls that a client can make on trees, pools, rounds and sessions, as data. Each of them
leaves what is settled settled, and makes moves of a few kinds only.
-/

namespace BranchCutPrice

open BranchCutPrice.Action Relaxation

/-! ### Trees -/

inductive TreeCall where
  | createRoot (basis : BasisId)
  | createLeaf (parent : NodeId) (basis : BasisId)
  | addRow (id : NodeId) (row : RowId)
  | addDomainChange (id : NodeId) (change : BoundChange)
  | setConstraints (id : NodeId) (constraints : List Nat)
  | raiseBound (id : NodeId) (bound : Float)
  | insertLeaf (id : NodeId)
  | removeLeaf (id : NodeId)
  | popLeaf
  | leafToFork (id : NodeId)
  | forkToSubroot (id : NodeId)
  | promote (id : NodeId)
  | focusOn (id : NodeId)
  | freeNode (id : NodeId)
  | pruneLeaves (cutoff : Float)
  | clear

namespace TreeCall

def perform : TreeCall → Action (Linked Tree) Unit
  | createRoot basis => discard (Tree.createRoot basis)
  | createLeaf parent basis => discard (Tree.createLeaf parent basis)
  | addRow id row => Tree.addRow id row
  | addDomainChange id change => onOwn (Tree.addDomainChange id change)
  | setConstraints id constraints => onOwn (Tree.setConstraints id constraints)
  | raiseBound id bound => onOwn (discard (Tree.raiseBound id bound))
  | insertLeaf id => onOwn (Tree.insertLeaf id)
  | removeLeaf id => onOwn (Tree.removeLeaf id)
  | popLeaf => onOwn (discard Tree.popLeaf)
  | leafToFork id => Tree.leafToFork id
  | forkToSubroot id => Tree.forkToSubroot id
  | promote id => discard (Tree.promote id)
  | focusOn id => discard (Tree.focusOn id)
  | freeNode id => Tree.freeNode id
  | pruneLeaves cutoff => discard (Tree.pruneLeaves cutoff)
  | clear => Tree.clear

/-- The kinds of moves that a call makes on its tree. -/
def deeds : TreeCall → Set Deed
  | createRoot _ | createLeaf _ _ => {.sprout}
  | leafToFork _ | promote _ => {.solve}
  | forkToSubroot _ => {.flatten}
  | freeNode _ | pruneLeaves _ | clear => {.fell}
  | _ => {.plain}

variable {s : Linked Tree} {owed : Holdings}

theorem perform_reaches (call : TreeCall) (settled : Settled s owed) (shaped : s.desk.Shaped) :
    call.perform.Reaches s fun s' => Settled s' owed ∧ Moves call.deeds s.desk s'.desk := by
  have same {may : Set Deed} {s' : Linked Tree} (unchanged : s' = s) :
      Settled s' owed ∧ Moves may s.desk s'.desk := by
    rw [unchanged]
    exact ⟨settled, .rfl⟩
  cases call with
  | createRoot basis =>
    apply discard_reaches.2
    exact (Tree.createRoot_ensures settled shaped.sound basis).imp (fun _ _ done => done.1)
      fun _ _ refused => same refused.1
  | createLeaf parent basis =>
    apply discard_reaches.2
    exact (Tree.createLeaf_ensures settled shaped.sound parent basis).imp
      (fun _ _ done => done.1) fun _ _ refused => same refused
  | addRow id row => exact Tree.addRow_reaches settled id row
  | addDomainChange id change =>
    exact Tree.onOwn_reaches settled (Tree.addDomainChange_reaches s.own id change)
  | setConstraints id constraints =>
    exact Tree.onOwn_reaches settled (Tree.setConstraints_reaches s.own id constraints)
  | raiseBound id bound =>
    exact Tree.onOwn_reaches settled (discard_reaches.2 (Tree.raiseBound_reaches s.own id bound))
  | insertLeaf id => exact Tree.onOwn_reaches settled (Tree.insertLeaf_reaches s.own id)
  | removeLeaf id => exact Tree.onOwn_reaches settled (Tree.removeLeaf_reaches s.own id)
  | popLeaf => exact Tree.onOwn_reaches settled (discard_reaches.2 (Tree.popLeaf_reaches s.own))
  | leafToFork id =>
    apply (Tree.leafToFork_ensures settled id).imp
    · intro _ s' done
      obtain ⟨node, basis, added, found, leaf, converted⟩ := done
      exact ⟨converted.settled, .one (converted.move found leaf (.inl rfl)) (Set.mem_singleton _)⟩
    · intro _ _ refused
      exact same refused
  | forkToSubroot id =>
    apply (Tree.forkToSubroot_ensures settled id).imp
    · intro _ s' done
      obtain ⟨node, added, children, found, fork, focus, converted⟩ := done
      have move : Move .flatten s.desk s'.desk := by
        rw [converted.desk]
        exact .flatten found fork focus
      exact ⟨converted.settled, .one move (Set.mem_singleton _)⟩
    · intro _ _ refused
      exact same refused.1
  | promote id =>
    apply discard_reaches.2
    exact (Tree.promote_ensures settled shaped id).imp (fun _ _ done => done.1)
      fun _ _ refused => same refused
  | focusOn id =>
    apply discard_reaches.2
    exact (Tree.focusOn_ensures settled shaped id).imp (fun _ _ done => done.1)
      fun _ _ refused => refused.1
  | freeNode id =>
    exact (Tree.freeNode_ensures settled shaped id).imp (fun _ _ done => done)
      fun _ _ refused => same refused.1
  | pruneLeaves cutoff =>
    exact discard_reaches.2 (Tree.pruneLeaves_proceeds settled shaped cutoff).reaches
  | clear =>
    exact Completes.reaches (Tree.clear_ensures settled shaped) fun _ _ done => done.1

/-- No call both creates and removes nodes. -/
theorem deeds_oneWay (call : TreeCall) : .fell ∉ call.deeds ∨ .sprout ∉ call.deeds := by
  cases call <;> simp [deeds]

end TreeCall

/-! ### Pools and rounds -/

inductive RowPoolCall where
  | reserve (additional : Nat)
  | add (row : RowId)
  | addIfNew (row : RowId)
  | remove (row : RowId)
  | scan (solution : Nat) (check : Check .row Row)
  | clear

inductive CutPoolCall where
  | add (row : RowId)
  | addNew (row : RowId)
  | remove (row : RowId)
  | scan
  | clear

inductive CutRoundCall where
  | add (row : RowId) (efficacy : RawDouble) (forced : Bool)
  | clear

variable {owed : Holdings}

namespace RowPoolCall

def perform : RowPoolCall → Action (Linked (Pool .row Row)) Unit
  | reserve additional => rowStock.run (Stock.reserve additional)
  | add row => rowStock.run (Stock.add row)
  | addIfNew row => rowStock.run (discard (Stock.addIfNew row))
  | remove row => rowStock.run (Stock.remove row)
  | scan solution check => rowStock.run (discard (Stock.scan solution check))
  | clear => rowStock.run Stock.clear

theorem perform_reaches (call : RowPoolCall) {s : Linked (Pool .row Row)}
    (settled : Settled s owed) :
    call.perform.Reaches s fun s' => Settled s' owed ∧ Still s.lp s'.lp := by
  cases call with
  | reserve additional =>
    exact rowStock_reaches settled fun _ balanced => Stock.reserve_reaches balanced additional
  | add row => exact rowStock_reaches settled fun _ balanced => Stock.add_reaches balanced row
  | addIfNew row =>
    exact rowStock_reaches settled fun _ balanced =>
      discard_reaches.2 (Stock.addIfNew_reaches balanced row)
  | remove row =>
    exact rowStock_reaches settled fun _ balanced => Stock.remove_reaches balanced row
  | scan solution check =>
    exact rowStock_reaches settled fun _ balanced =>
      discard_reaches.2 (Stock.scan_reaches balanced solution check)
  | clear =>
    exact rowStock_reaches settled fun _ balanced =>
      Completes.reaches (Stock.clear_reaches balanced) fun _ _ done => done.1

end RowPoolCall

namespace CutPoolCall

def perform : CutPoolCall → Action (Linked CutPool) Unit
  | add row => discard (CutPool.add row)
  | addNew row => CutPool.addNew row
  | remove row => CutPool.remove row
  | scan => discard CutPool.scan
  | clear => CutPool.clear

theorem perform_reaches (call : CutPoolCall) {s : Linked CutPool} (settled : Settled s owed) :
    call.perform.Reaches s fun s' => Settled s' owed ∧ Still s.lp s'.lp := by
  cases call with
  | add row => exact discard_reaches.2 (CutPool.add_reaches settled row)
  | addNew row => exact CutPool.addNew_reaches settled row
  | remove row => exact CutPool.remove_reaches settled row
  | scan => exact discard_reaches.2 (CutPool.scan_reaches settled)
  | clear => exact CutPool.clear_reaches settled

end CutPoolCall

namespace CutRoundCall

def perform : CutRoundCall → Action (Linked SeparationRound) Unit
  | add row efficacy forced => SeparationRound.add row efficacy forced
  | clear => SeparationRound.clear

theorem perform_reaches (call : CutRoundCall) {s : Linked SeparationRound}
    (settled : Settled s owed) :
    call.perform.Reaches s fun s' => Settled s' owed ∧ Still s.lp s'.lp := by
  cases call with
  | add row efficacy forced => exact SeparationRound.add_reaches settled row efficacy forced
  | clear =>
    exact Completes.reaches (SeparationRound.clear_ensures settled)
      fun _ _ done => ⟨done.1, done.2.2⟩

end CutRoundCall

/-! ### Sessions -/

/-- Settled but for what nobody will release any more: the given columns, and rows unless
`timely`. -/
def Bereft {σ : Type} [Ledger σ] (s : σ) (owed : Holdings) (columns : Multiset ColumnId)
    (timely : Prop) : Prop :=
  ∃ lost, Settled s (owed + lost) ∧ lost.columns = columns ∧ lost.bases = 0 ∧
    (timely → lost.rows = 0)

theorem Settled.bereft {σ : Type} [Ledger σ] {s : σ} (settled : Settled s owed) (timely : Prop) :
    Bereft s owed 0 timely := by
  refine ⟨0, ?_, rfl, rfl, fun _ => rfl⟩
  rw [add_zero]
  exact settled

theorem Part.Frames.bereft {σ τ α : Type} [Ledger σ] [Ledger τ] {part : Part σ τ}
    {act : Action τ α} {s : σ} (frames : part.Frames) (settled : Settled s owed)
    {columns : Multiset ColumnId} {timely : Prop} {reached : τ → Prop}
    (keeps : ∀ owed, Settled (part.get s) owed →
      act.Reaches (part.get s) fun t => Bereft t owed columns timely ∧ reached t) :
    (part.run act).Reaches s fun s' =>
      Bereft s' owed columns timely ∧ ∃ t, s' = part.set s t ∧ reached t := by
  obtain ⟨rest, inside, back⟩ := frames.enter settled
  apply ensures_run.2
  apply (keeps _ inside).imp
  all_goals
    intro _ t kept
    obtain ⟨⟨lost, kept, rest⟩, did⟩ := kept
    exact ⟨⟨lost, back t lost kept, rest⟩, t, rfl, did⟩

inductive SessionCall where
  | start
  | nextNode
  | installSolution (id : NodeId) (primal duals : Array Float) (objective : Float)
  | installFarkas (proof : Array Float)
  | addCut (row : RowId) (forced : Bool)
  | separationRound (id : NodeId)
  | addPricedColumn (column : ColumnId) (reducedCost : Float) (forced : Bool)
  | pricingRound (mode : PricingMode)
  | branch (id : NodeId) (children : List (List BoundChange))
  | finishNode (id : NodeId)
  | reportSolution (solution : Array Float) (objective : Float)
  | updateIncumbent (solution : Array Float) (objective : Float)
  | reportProgress
  | clear

namespace SessionCall

def perform : SessionCall → Action Session Unit
  | start => discard Session.start
  | nextNode => discard Session.nextNode
  | installSolution id primal duals objective =>
      discard (Session.installSolution id primal duals objective)
  | installFarkas proof => discard (Session.installFarkas proof)
  | addCut row forced => Session.addCut row forced
  | separationRound id => discard (Session.separationRound id)
  | addPricedColumn column reducedCost forced =>
      Session.addPricedColumn column reducedCost forced
  | pricingRound mode => discard (Session.pricingRound mode)
  | branch id children => discard (Session.branch id children)
  | finishNode id => Session.finishNode id
  | reportSolution solution objective => discard (Session.reportSolution solution objective)
  | updateIncumbent solution objective =>
      discard (Session.incumbentPart.run (Incumbent.update solution objective))
  | reportProgress => Session.reportProgress
  | clear => Session.clear

/-- A search is started while its tree is empty. -/
def Timely (s : Session) : SessionCall → Prop
  | start => s.tree.root = none
  | _ => True

instance (s : Session) : (call : SessionCall) → Decidable (call.Timely s)
  | start => inferInstanceAs (Decidable (s.tree.root = none))
  | nextNode | installSolution _ _ _ _ | installFarkas _ | addCut _ _ | separationRound _
  | addPricedColumn _ _ _ | pricingRound _ | branch _ _ | finishNode _ | reportSolution _ _
  | updateIncumbent _ _ | reportProgress | clear => isTrue trivial

/-- The columns that a call loses sight of. -/
def dropped (s : Session) : SessionCall → Multiset ColumnId
  | pricingRound mode => s.dropped mode
  | _ => 0

/-- The kinds of moves that a call makes on the tree of its session. -/
def deeds (s : Session) : SessionCall → Set Deed
  | start => if s.tree.root = none then {.plain, .sprout} else {.reload}
  | branch _ _ => {.plain, .solve, .sprout}
  | nextNode | clear => {.plain, .fell}
  | finishNode _ | reportSolution _ _ => {.fell}
  | _ => {.plain}

variable {s : Session}

/-- A call loses the columns that it drops, and if it comes too late rows, but nothing else. -/
theorem perform_reaches (call : SessionCall) (settled : Settled s owed) (shaped : s.desk.Shaped)
    (bases : s.lp.bases.table.Roomy) (nodes : s.tree.nodes.Roomy) :
    call.perform.Reaches s fun s' =>
      Bereft s' owed (call.dropped s) (call.Timely s) ∧ Moves (call.deeds s) s.desk s'.desk := by
  have whole {act : Action Session Unit} (none : call.dropped s = 0)
      (keeps : act.Reaches s fun s' => Settled s' owed ∧ Moves (call.deeds s) s.desk s'.desk) :
      act.Reaches s fun s' =>
        Bereft s' owed (call.dropped s) (call.Timely s) ∧ Moves (call.deeds s) s.desk s'.desk := by
    apply keeps.imp
    all_goals
      intro _ _ done
      rw [none]
      exact ⟨done.1.bereft _, done.2⟩
  -- what leaves the desk alone makes no moves
  have still {act : Action Session Unit} (none : call.dropped s = 0)
      (keeps : act.Reaches s fun s' => Settled s' owed ∧ s'.desk = s.desk) :
      act.Reaches s fun s' =>
        Bereft s' owed (call.dropped s) (call.Timely s) ∧ Moves (call.deeds s) s.desk s'.desk := by
    apply whole none
    apply keeps.imp
    all_goals
      intro _ _ done
      rw [done.2]
      exact ⟨done.1, .rfl⟩
  cases call with
  | start =>
    have ending (s' : Session) (started :
        (s.tree.root = none ∧ Settled s' owed ∧ Moves {.plain, .sprout} s.desk s'.desk) ∨
        (s.tree.root ≠ none ∧ Settled s' (owed + .ofRows s.lp.loadedRows) ∧
          Moves {.reload} s.desk s'.desk)) :
        Bereft s' owed 0 (Timely s start) ∧ Moves (deeds s start) s.desk s'.desk := by
      unfold deeds
      obtain ⟨bare, settled', moves⟩ | ⟨rooted, settled', moves⟩ := started
      · rw [if_pos bare]
        exact ⟨settled'.bereft _, moves⟩
      · rw [if_neg rooted]
        exact ⟨⟨_, settled', rfl, rfl, fun timely => absurd timely rooted⟩, moves⟩
    apply discard_reaches.2
    apply (Session.start_reaches settled shaped bases nodes).imp
    · intro _ s' started
      exact ending s' started
    · intro _ s' started
      exact ending s' started
  | nextNode =>
    exact whole rfl (discard_reaches.2 (Session.nextNode_proceeds settled shaped).reaches)
  | installSolution id primal duals objective =>
    exact whole rfl (discard_reaches.2
      (Session.installSolution_reaches settled id primal duals objective))
  | installFarkas proof =>
    exact still rfl (discard_reaches.2 (Session.installFarkas_reaches settled proof))
  | addCut row forced => exact still rfl (Session.addCut_reaches settled row forced)
  | separationRound id =>
    exact whole rfl (discard_reaches.2 (Session.separationRound_reaches settled id))
  | addPricedColumn column reducedCost forced =>
    exact still rfl (Session.addPricedColumn_reaches settled column reducedCost forced)
  | pricingRound mode =>
    apply discard_reaches.2
    apply (Session.pricingRound_reaches settled mode).imp
    all_goals
      intro _ s' done
      obtain ⟨settled', desk⟩ := done
      rw [desk]
      exact ⟨⟨_, settled', rfl, rfl, fun _ => rfl⟩, .rfl⟩
  | branch id children =>
    exact whole rfl (discard_reaches.2 (Session.branch_reaches settled shaped bases id children))
  | finishNode id => exact whole rfl (Session.finishNode_proceeds settled shaped id).reaches
  | reportSolution solution objective =>
    exact whole rfl (discard_reaches.2
      (Session.reportSolution_proceeds settled shaped solution objective).reaches)
  | updateIncumbent solution objective =>
    exact still rfl (discard_reaches.2 (Session.updateIncumbent_reaches settled solution objective))
  | reportProgress =>
    apply still rfl
    unfold perform Session.reportProgress Reaches
    rw [ensures_bind, ensures_get, ensures_emitIf]
    exact ⟨settled, rfl⟩
  | clear => exact whole rfl (Session.clear_reaches settled shaped)

theorem deeds_oneWay (call : SessionCall) (s : Session) :
    .fell ∉ call.deeds s ∨ .sprout ∉ call.deeds s := by
  cases call with
  | start =>
    by_cases bare : s.tree.root = none
    · simp [deeds, bare]
    · simp [deeds, bare]
  | _ => simp [deeds]

end SessionCall

end BranchCutPrice
