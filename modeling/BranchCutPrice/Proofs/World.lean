import BranchCutPrice.Proofs.Calls
import Mathlib.Algebra.BigOperators.Group.Finset.Piecewise
import Mathlib.Data.Fintype.Basic

/-!
A relaxation with everything that uses it: the account of a client, trees, pools of rows and
rounds in any number of places, and a session. The session works on what stands in the
default place. A call changes one place, or two, or the session.
-/

namespace BranchCutPrice

open BranchCutPrice.Action Relaxation

structure World (ι : Type) where
  lp : Relaxation
  /-- What the client holds itself. -/
  client : Holdings
  trees : ι → Tree
  rowPools : ι → Pool .row Row
  cutPools : ι → CutPool
  cutRounds : ι → SeparationRound
  columnPool : ColumnPool
  columns : PricingRound
  incumbent : Incumbent
  processed : Nat
  pruned : Nat
  cutsAdded : Nat
  columnsAdded : Nat
  settings : SessionSettings

variable {ι : Type}

section Families

variable [Fintype ι] {τ : Type} [Holder τ]

instance : Holder (ι → τ) where
  holdings family := ∑ p, Holder.holdings (family p)

/-- Changing one member of a family leaves what the others hold. -/
theorem holdings_update [DecidableEq ι] (family : ι → τ) (p : ι) :
    ∃ rest, Holder.holdings family = rest + Holder.holdings (family p) ∧
      ∀ t, Holder.holdings (Function.update family p t) = rest + Holder.holdings t := by
  refine ⟨∑ q ∈ Finset.univ.erase p, Holder.holdings (family q), ?_, fun t => ?_⟩
  · exact (Finset.sum_erase_add _ _ (Finset.mem_univ p)).symm
  · change ∑ q, Holder.holdings (Function.update family p t q) = _
    rw [← Finset.sum_erase_add _ _ (Finset.mem_univ p), Function.update_self]
    congr 1
    apply Finset.sum_congr rfl
    intro q member
    rw [Function.update_of_ne (Finset.ne_of_mem_erase member)]

end Families

namespace World

instance [Fintype ι] : Ledger (World ι) where
  lp w := w.lp
  held w := w.client + Holder.holdings w.trees + Holder.holdings w.rowPools +
    Holder.holdings w.cutPools + Holder.holdings w.cutRounds +
    Holder.holdings w.columnPool + Holder.holdings w.columns

/-- The tree at a place with the rows that are loaded. -/
def desk (w : World ι) (p : ι) : Desk :=
  (w.trees p).desk w.lp.loadedRows

/-- An operation beside the trees leaves their desks. -/
theorem beside_reaches [Fintype ι] {w : World ι} {owed : Holdings} {τ : Type} [Holder τ]
    {part : Part (World ι) (Linked τ)} {act : Action (Linked τ) Unit} (frames : part.Frames)
    (trees : ∀ w s, (part.set w s).trees = w.trees) (settled : Settled w owed)
    (keeps : ∀ owed, Settled (part.get w) owed →
      act.Reaches (part.get w) fun s => Settled s owed ∧ Still (part.get w).lp s.lp) :
    (part.run act).Reaches w fun w' => Settled w' owed ∧ ∀ q, w'.desk q = w.desk q := by
  apply (frames.ensures settled keeps).imp
  all_goals
    intro _ w' done
    obtain ⟨settled', s, rfl, still⟩ := done
    refine ⟨settled', fun q => ?_⟩
    have lpGet : (part.get w).lp = w.lp := frames.lp_get w
    have lpSet : (part.set w s).lp = s.lp := frames.lp_set w s
    unfold desk
    rw [trees, lpSet, still.loadedRows, lpGet]

/-! ### Parts -/

variable [DecidableEq ι]

/-- Wherever a tree changes, at the others only the loaded rows may. -/
theorem moves_update {w w' : World ι} {p : ι} {tree : Tree}
    (trees : w'.trees = Function.update w.trees p tree) {may : Set Deed}
    (moves : Moves may (w.desk p) (tree.desk w'.lp.loadedRows)) (q : ι) :
    Moves (if q = p then may else {.reload}) (w.desk q) (w'.desk q) := by
  by_cases here : q = p
  · subst here
    have same : w'.trees q = tree := by
      rw [trees, Function.update_self]
    rw [if_pos rfl]
    unfold desk at moves ⊢
    rw [same]
    exact moves
  · have same : w'.trees q = w.trees q := by
      rw [trees, Function.update_of_ne here]
    rw [if_neg here]
    unfold desk
    rw [same]
    exact .one (.reload _) (Set.mem_singleton _)


def clientPart : Part (World ι) (Linked Holdings) where
  get w := ⟨w.client, w.lp⟩
  set w s := { w with client := s.own, lp := s.lp }

def treeAt (p : ι) : Part (World ι) (Linked Tree) where
  get w := ⟨w.trees p, w.lp⟩
  set w s := { w with trees := Function.update w.trees p s.own, lp := s.lp }

def rowPoolAt (p : ι) : Part (World ι) (Linked (Pool .row Row)) where
  get w := ⟨w.rowPools p, w.lp⟩
  set w s := { w with rowPools := Function.update w.rowPools p s.own, lp := s.lp }

def cutPoolAt (p : ι) : Part (World ι) (Linked CutPool) where
  get w := ⟨w.cutPools p, w.lp⟩
  set w s := { w with cutPools := Function.update w.cutPools p s.own, lp := s.lp }

def cutRoundAt (p : ι) : Part (World ι) (Linked SeparationRound) where
  get w := ⟨w.cutRounds p, w.lp⟩
  set w s := { w with cutRounds := Function.update w.cutRounds p s.own, lp := s.lp }

/-- A pool of cuts and a round. -/
def separating (p q : ι) : Part (World ι) (Linked (CutPool × SeparationRound)) where
  get w := ⟨(w.cutPools p, w.cutRounds q), w.lp⟩
  set w s := { w with
    cutPools := Function.update w.cutPools p s.own.1
    cutRounds := Function.update w.cutRounds q s.own.2
    lp := s.lp }

/-- A round and a tree. -/
def applying (p q : ι) : Part (World ι) (Linked (SeparationRound × Tree)) where
  get w := ⟨(w.cutRounds p, w.trees q), w.lp⟩
  set w s := { w with
    cutRounds := Function.update w.cutRounds p s.own.1
    trees := Function.update w.trees q s.own.2
    lp := s.lp }

/-! ### Frames -/

theorem desk_treeAt {p : ι} (w : World ι) (s : Linked Tree) :
    ((treeAt p).set w s).desk p = s.desk := by
  unfold desk
  change (Function.update w.trees p s.own p).desk s.lp.loadedRows = _
  rw [Function.update_self]
  rfl

variable [Fintype ι]

omit [DecidableEq ι] in
theorem clientPart_frames : (clientPart : Part (World ι) _).Frames where
  lp_get _ := rfl
  lp_set _ _ := rfl
  rest w := by
    refine ⟨Holder.holdings w.trees + Holder.holdings w.rowPools + Holder.holdings w.cutPools +
      Holder.holdings w.cutRounds + Holder.holdings w.columnPool + Holder.holdings w.columns,
      ?_, fun s => ?_⟩
    · dsimp only [Ledger.held, clientPart, Holder.holdings]
      abel
    · dsimp only [Ledger.held, clientPart, Holder.holdings]
      abel

theorem treeAt_frames (p : ι) : (treeAt p).Frames where
  lp_get _ := rfl
  lp_set _ _ := rfl
  rest w := by
    obtain ⟨rest, here, there⟩ := holdings_update w.trees p
    refine ⟨w.client + rest + Holder.holdings w.rowPools + Holder.holdings w.cutPools +
      Holder.holdings w.cutRounds + Holder.holdings w.columnPool + Holder.holdings w.columns,
      ?_, fun s => ?_⟩
    · dsimp only [Ledger.held, treeAt]
      rw [here]
      abel
    · dsimp only [Ledger.held, treeAt]
      rw [there]
      abel

theorem rowPoolAt_frames (p : ι) : (rowPoolAt p).Frames where
  lp_get _ := rfl
  lp_set _ _ := rfl
  rest w := by
    obtain ⟨rest, here, there⟩ := holdings_update w.rowPools p
    refine ⟨w.client + Holder.holdings w.trees + rest + Holder.holdings w.cutPools +
      Holder.holdings w.cutRounds + Holder.holdings w.columnPool + Holder.holdings w.columns,
      ?_, fun s => ?_⟩
    · dsimp only [Ledger.held, rowPoolAt]
      rw [here]
      abel
    · dsimp only [Ledger.held, rowPoolAt]
      rw [there]
      abel

theorem cutPoolAt_frames (p : ι) : (cutPoolAt p).Frames where
  lp_get _ := rfl
  lp_set _ _ := rfl
  rest w := by
    obtain ⟨rest, here, there⟩ := holdings_update w.cutPools p
    refine ⟨w.client + Holder.holdings w.trees + Holder.holdings w.rowPools + rest +
      Holder.holdings w.cutRounds + Holder.holdings w.columnPool + Holder.holdings w.columns,
      ?_, fun s => ?_⟩
    · dsimp only [Ledger.held, cutPoolAt]
      rw [here]
      abel
    · dsimp only [Ledger.held, cutPoolAt]
      rw [there]
      abel

theorem cutRoundAt_frames (p : ι) : (cutRoundAt p).Frames where
  lp_get _ := rfl
  lp_set _ _ := rfl
  rest w := by
    obtain ⟨rest, here, there⟩ := holdings_update w.cutRounds p
    refine ⟨w.client + Holder.holdings w.trees + Holder.holdings w.rowPools +
      Holder.holdings w.cutPools + rest + Holder.holdings w.columnPool +
      Holder.holdings w.columns, ?_, fun s => ?_⟩
    · dsimp only [Ledger.held, cutRoundAt]
      rw [here]
      abel
    · dsimp only [Ledger.held, cutRoundAt]
      rw [there]
      abel

theorem separating_frames (p q : ι) : (separating p q).Frames where
  lp_get _ := rfl
  lp_set _ _ := rfl
  rest w := by
    obtain ⟨pools, herePools, therePools⟩ := holdings_update w.cutPools p
    obtain ⟨rounds, hereRounds, thereRounds⟩ := holdings_update w.cutRounds q
    refine ⟨w.client + Holder.holdings w.trees + Holder.holdings w.rowPools + pools + rounds +
      Holder.holdings w.columnPool + Holder.holdings w.columns, ?_, fun s => ?_⟩
    · dsimp only [Ledger.held, separating]
      rw [herePools, hereRounds]
      dsimp only [Holder.holdings]
      abel
    · dsimp only [Ledger.held, separating]
      rw [therePools, thereRounds]
      dsimp only [Holder.holdings]
      abel

theorem applying_frames (p q : ι) : (applying p q).Frames where
  lp_get _ := rfl
  lp_set _ _ := rfl
  rest w := by
    obtain ⟨rounds, hereRounds, thereRounds⟩ := holdings_update w.cutRounds p
    obtain ⟨trees, hereTrees, thereTrees⟩ := holdings_update w.trees q
    refine ⟨w.client + trees + Holder.holdings w.rowPools + Holder.holdings w.cutPools + rounds +
      Holder.holdings w.columnPool + Holder.holdings w.columns, ?_, fun s => ?_⟩
    · dsimp only [Ledger.held, applying]
      rw [hereRounds, hereTrees]
      dsimp only [Holder.holdings]
      abel
    · dsimp only [Ledger.held, applying]
      rw [thereRounds, thereTrees]
      dsimp only [Holder.holdings]
      abel

/-! ### What stays -/

/-- Numbers of slots are left in every table. -/
structure Roomy (w : World ι) : Prop where
  lp : w.lp.Roomy
  nodes : ∀ p, (w.trees p).nodes.Roomy

instance (w : World ι) : Decidable w.Roomy :=
  decidable_of_iff ((w.lp.rows.table.Roomy ∧ w.lp.columns.table.Roomy ∧
      w.lp.bases.table.Roomy) ∧ ∀ p, (w.trees p).nodes.Roomy)
    ⟨fun ⟨⟨rows, columns, bases⟩, nodes⟩ => ⟨⟨rows, columns, bases⟩, nodes⟩,
      fun ⟨⟨rows, columns, bases⟩, nodes⟩ => ⟨⟨rows, columns, bases⟩, nodes⟩⟩

/-- What every step keeps. -/
structure Kept (w : World ι) (owed : Holdings) : Prop where
  settled : Settled w owed
  shaped : ∀ p, (w.desk p).Shaped
  roomy : w.Roomy

variable {w : World ι} {owed : Holdings}

omit [DecidableEq ι] in
/-- Direct edits of the loaded rows are of no account to a tree without focus. -/
theorem clientPart_reaches (call : ClientCall) (kept : w.Kept owed)
    (permitted : call.Permitted w.client) :
    (clientPart.run call.perform).Reaches w fun w' => Settled w' owed ∧
      ∀ q, Moves (if call.editsRows ∧ (w.trees q).focus ≠ none then {.reload} else {.plain})
        (w.desk q) (w'.desk q) := by
  have performed (owed : Holdings) (inside : Settled (clientPart.get w) owed) :=
    call.perform_reaches inside kept.roomy.lp permitted
  apply (clientPart_frames.ensures kept.settled performed).imp
  all_goals
    intro _ w' done
    obtain ⟨settled', s, rfl, quiet⟩ := done
    refine ⟨settled', fun q => ?_⟩
    have desk : (clientPart.set w s).desk q = { w.desk q with loaded := s.lp.loadedRows } := rfl
    rw [desk]
    split
    · exact .one (.reload _) (Set.mem_singleton _)
    · rename_i apart
      cases edits : call.editsRows with
      | false =>
        rw [quiet edits]
        exact .rfl
      | true =>
        have loose : (w.desk q).focus = none := by
          by_contra focused
          exact apart ⟨edits, focused⟩
        exact .one (.adjust (.inl loose)) (Set.mem_singleton _)

/-- A call on a tree moves that tree, and elsewhere changes the loaded rows at most. -/
theorem treeAt_reaches (p : ι) (call : TreeCall) (settled : Settled w owed)
    (shaped : (w.desk p).Shaped) :
    ((treeAt p).run call.perform).Reaches w fun w' => Settled w' owed ∧
      ∀ q, Moves (if q = p then call.deeds else {.reload}) (w.desk q) (w'.desk q) := by
  apply ((treeAt_frames p).ensures settled fun _ inside => call.perform_reaches inside shaped).imp
  all_goals
    intro _ w' done
    obtain ⟨settled', s, rfl, moves⟩ := done
    exact ⟨settled', moves_update rfl moves⟩

theorem applying_reaches (p q : ι) (node : NodeId) (limit : Nat)
    (settled : Settled w owed) :
    ((applying p q).run (discard (SeparationRound.apply node limit))).Reaches w fun w' =>
      Settled w' owed ∧
        ∀ r, Moves (if r = q then {.plain} else {.reload}) (w.desk r) (w'.desk r) := by
  have applied (owed : Holdings) (inside : Settled ((applying p q).get w) owed) :=
    discard_reaches.2 (SeparationRound.apply_reaches inside node limit)
  apply ((applying_frames p q).ensures settled applied).imp
  all_goals
    intro _ w' done
    obtain ⟨settled', s, rfl, moves⟩ := done
    exact ⟨settled', moves_update rfl moves⟩

/-! ### The session -/

variable [Inhabited ι]

def session (w : World ι) : Session where
  tree := w.trees default
  lp := w.lp
  cutPool := w.cutPools default
  columnPool := w.columnPool
  cuts := w.cutRounds default
  columns := w.columns
  incumbent := w.incumbent
  processed := w.processed
  pruned := w.pruned
  cutsAdded := w.cutsAdded
  columnsAdded := w.columnsAdded
  settings := w.settings

def sessionPart : Part (World ι) Session where
  get := session
  set w s := { w with
    lp := s.lp
    trees := Function.update w.trees default s.tree
    cutPools := Function.update w.cutPools default s.cutPool
    cutRounds := Function.update w.cutRounds default s.cuts
    columnPool := s.columnPool
    columns := s.columns
    incumbent := s.incumbent
    processed := s.processed
    pruned := s.pruned
    cutsAdded := s.cutsAdded
    columnsAdded := s.columnsAdded
    settings := s.settings }

omit [Fintype ι] in
theorem session_set (w : World ι) (s : Session) : (sessionPart.set w s).session = s := by
  unfold session sessionPart
  simp only [Function.update_self]

theorem sessionPart_frames : (sessionPart : Part (World ι) _).Frames where
  lp_get _ := rfl
  lp_set _ _ := rfl
  rest w := by
    obtain ⟨trees, hereTrees, thereTrees⟩ := holdings_update w.trees default
    obtain ⟨pools, herePools, therePools⟩ := holdings_update w.cutPools default
    obtain ⟨rounds, hereRounds, thereRounds⟩ := holdings_update w.cutRounds default
    refine ⟨w.client + trees + Holder.holdings w.rowPools + pools + rounds, ?_, fun s => ?_⟩
    · dsimp only [Ledger.held, sessionPart, session]
      rw [hereTrees, herePools, hereRounds]
      abel
    · dsimp only [Ledger.held, sessionPart]
      rw [thereTrees, therePools, thereRounds]
      abel

end World

end BranchCutPrice
