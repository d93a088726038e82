import BranchCutPrice.Proofs.Runs

/-!
Reconstruction of row lists. The list that a node was solved with is what replaying the
recorded rows gives, right after the node was promoted and as long as it lives, and its new
children start from it.
-/

namespace BranchCutPrice

open BranchCutPrice.Action

variable {ι : Type} [DecidableEq ι] [Inhabited ι]

/-- Anything may be called, except that no fork becomes a subroot directly at one place. -/
def Unflattened (p : ι) : Rule ι :=
  fun _ call => ∀ id, call ≠ .tree p (.forkToSubroot id)

theorem Call.flatten_notMem {p : ι} {w : World ι} {call : Call ι}
    (allowed : Unflattened p w call) : .flatten ∉ call.deeds w p := by
  cases call with
  | client call | applyCuts =>
    simp only [deeds]
    split <;> simp
  | tree q call =>
    simp only [deeds]
    split
    · rename_i here
      subst here
      cases call with
      | forkToSubroot id => exact absurd rfl (allowed id)
      | _ => simp [TreeCall.deeds]
    · simp
  | session call =>
    simp only [deeds]
    split
    · cases call with
      | start =>
        by_cases bare : w.session.tree.root = none
        · simp [SessionCall.deeds, bare]
        · simp [SessionCall.deeds, bare]
      | _ => simp [SessionCall.deeds]
    · simp
  | rowPool | cutPool | cutRound | separate => simp [deeds]

variable [Fintype ι] {p : ι} {w u v : World ι} {id : NodeId} {rows : List RowId}
  {owed : Holdings}

/-- A promoted node has the rows that were loaded. -/
theorem Step.promoted (step : Step (.tree p (.promote id)) w u) (kept : w.Kept owed)
    {kind : NodeKind} (promoted : (Tree.promote id ⟨w.trees p, w.lp⟩).result = .ok kind) :
    (u.desk p).Solved id w.lp.loadedRows := by
  have promotes (owed : Holdings) (inside : Settled (Linked.mk (w.trees p) w.lp) owed) :
      (Tree.promote id).Ensures (Linked.mk (w.trees p) w.lp)
        (fun _ t => Settled t owed ∧ t.desk.Solved id w.lp.loadedRows)
        (fun _ t => Settled t owed ∧ True) := by
    apply (Tree.promote_ensures inside (kept.shaped p) id).imp
    · intro _ _ done
      exact ⟨done.1.1, done.2.2⟩
    · intro _ _ same
      rw [same]
      exact ⟨inside, trivial⟩
  have ensured := (World.treeAt_frames p).ensures kept.settled promotes
  have ended : ((World.treeAt p).run (Tree.promote id) w).result = .ok kind := promoted
  obtain ⟨_, t, reached, solved⟩ := ensures_of_ok ended ensured
  have state : u = (World.treeAt p).set w t := by
    rw [← step.performed, ← reached]
    exact congrArg ((World.treeAt p).set w) (discard_state _ _)
  rw [state, World.desk_treeAt]
  exact solved

/-- What a node was solved with stays as long as it lives. -/
theorem Run.solved (run : Run (fun w call => Unflattened p w call ∧
      (w.trees p).contains id = true) u v) (kept : u.Kept owed)
    (solved : (u.desk p).Solved id rows) (live : (v.trees p).contains id = true) :
    (v.desk p).Solved id rows := by
  induction run with
  | refl => exact solved
  | tail earlier last ih =>
    obtain ⟨call, ⟨allowed, before⟩, step⟩ := last
    obtain ⟨lost, kept', _⟩ := Run.kept earlier kept
    apply (step.moves kept' p).solved
    · exact Call.flatten_notMem allowed
    · exact call.deeds_oneWay _ p
    · exact kept'.shaped p
    · exact (step.roomy.nodes p).fits
    · exact ih before
    · exact live

/-- A leaf created below a node starts with the rows of that node. -/
theorem Step.created {basis : BasisId} {leaf : NodeId}
    (step : Step (.tree p (.createLeaf id basis)) u v) (kept : u.Kept owed)
    (created : (Tree.createLeaf id basis ⟨u.trees p, u.lp⟩).result = .ok leaf)
    (replays : Replays (u.trees p).nodes id rows) : Replays (v.trees p).nodes leaf rows := by
  have sound : (u.trees p).nodes.Sound := (kept.shaped p).sound
  have creates (owed : Holdings) (inside : Settled (Linked.mk (u.trees p) u.lp) owed) :
      (Tree.createLeaf id basis).Ensures (Linked.mk (u.trees p) u.lp)
        (fun child t => Settled t owed ∧
          (t.own.nodes.Fits → Replays t.own.nodes child rows))
        (fun _ t => Settled t owed ∧ True) := by
    apply (Tree.createLeaf_ensures inside sound id basis).imp
    · intro _ _ done
      obtain ⟨⟨settled, _⟩, counted, child, born⟩ := done
      exact ⟨settled, fun fits => born.replays sound fits replays⟩
    · intro _ _ same
      rw [same]
      exact ⟨inside, trivial⟩
  have ensured := (World.treeAt_frames p).ensures kept.settled creates
  have ended : ((World.treeAt p).run (Tree.createLeaf id basis) u).result = .ok leaf := created
  obtain ⟨_, t, reached, born⟩ := ensures_of_ok ended ensured
  have state : v = (World.treeAt p).set u t := by
    rw [← step.performed, ← reached]
    exact congrArg ((World.treeAt p).set u) (discard_state _ _)
  have nodes : (v.trees p).nodes = t.own.nodes := by
    have desk : v.desk p = t.desk := by
      rw [state, World.desk_treeAt]
    exact congrArg Desk.nodes desk
  have fits := (step.roomy.nodes p).fits
  rw [nodes] at fits ⊢
  exact born fits

/-- The rows that a node was solved with are the rows of its relaxation ever after. -/
theorem lpRows_reconstructed {rule : Rule ι} {kind : NodeKind} (reached : Reachable rule w)
    (step : Step (.tree p (.promote id)) w u)
    (promoted : (Tree.promote id ⟨w.trees p, w.lp⟩).result = .ok kind) :
    (u.trees p).lpRows id = .ok w.lp.loadedRows ∧
      ∀ v, Run (fun w call => Unflattened p w call ∧ (w.trees p).contains id = true) u v →
        (v.trees p).contains id = true →
        (v.trees p).lpRows id = .ok w.lp.loadedRows ∧
          ∀ basis leaf x, Step (.tree p (.createLeaf id basis)) v x →
            (Tree.createLeaf id basis ⟨v.trees p, v.lp⟩).result = .ok leaf →
            (x.trees p).lpRows leaf = .ok w.lp.loadedRows := by
  obtain ⟨_, kept, _⟩ := reached.kept
  obtain ⟨_, keptU, _⟩ := step.kept kept
  have solved := step.promoted kept promoted
  constructor
  · exact (Tree.lpRows_eq (keptU.shaped p)).2 solved.replays
  · intro v run live
    obtain ⟨_, keptV, _⟩ := run.kept keptU
    have solvedV := run.solved keptU solved live
    constructor
    · exact (Tree.lpRows_eq (keptV.shaped p)).2 solvedV.replays
    · intro basis leaf x stepX created
      obtain ⟨_, keptX, _⟩ := stepX.kept keptV
      exact (Tree.lpRows_eq (keptX.shaped p)).2 (stepX.created keptV created solvedV.replays)

/-- A fork at the root, and below it a node with other rows than it recorded, since the client
unloads one. That one becomes a subroot, and a leaf below it is the focus and adds a row. -/
def chaining : List (Call Unit) :=
  rooting ++
    [.tree () (.promote ⟨0, 0⟩), .tree () (.createLeaf ⟨0, 0⟩ ⟨0, 0⟩),
      .tree () (.createLeaf ⟨0, 0⟩ ⟨0, 0⟩), .tree () (.focusOn ⟨1, 0⟩),
      .client (.createRow ⟨"cut", ⟨1, []⟩, 0, 2, false⟩), .tree () (.addRow ⟨1, 0⟩ ⟨1, 0⟩),
      .client (.unloadRow ⟨0, 0⟩), .tree () (.promote ⟨1, 0⟩),
      .tree () (.createLeaf ⟨1, 0⟩ ⟨0, 0⟩), .tree () (.focusOn ⟨3, 0⟩),
      .client (.createRow ⟨"cut", ⟨1, []⟩, 0, 3, false⟩), .tree () (.addRow ⟨3, 0⟩ ⟨2, 0⟩)]

def World.chained : World Unit :=
  World.initial.after chaining

def World.extended : World Unit :=
  World.chained.after [.tree () (.promote ⟨3, 0⟩)]

/-- Another branch is loaded, then unloaded by the client and removed. -/
def World.departed : World Unit :=
  World.extended.after
    [.tree () (.focusOn ⟨2, 0⟩), .client (.unloadRow ⟨0, 0⟩), .tree () (.freeNode ⟨2, 0⟩)]

theorem lpRows_reconstructed_chained :
    let kind (w : World Unit) (id : NodeId) := ((w.trees ()).node id).map (·.kind)
    [kind World.extended ⟨0, 0⟩, kind World.extended ⟨1, 0⟩, kind World.extended ⟨3, 0⟩] =
        [.ok .fork, .ok .subroot, .ok .fork] ∧
      (World.extended.trees ()).lpRows ⟨3, 0⟩ = .ok [⟨1, 0⟩, ⟨2, 0⟩] ∧
      World.departed.lp.loadedRows = [] ∧
      (World.departed.trees ()).lpRows ⟨3, 0⟩ = .ok [⟨1, 0⟩, ⟨2, 0⟩] ∧
      ((World.departed.after [.tree () (.createLeaf ⟨3, 0⟩ ⟨0, 0⟩)]).trees ()).lpRows ⟨2, 1⟩ =
        .ok [⟨1, 0⟩, ⟨2, 0⟩] := by
  intro kind
  have plays : Plays (fun _ _ => True) World.initial chaining := by
    decide +kernel
  have step : Step (.tree () (.promote ⟨3, 0⟩)) World.chained World.extended :=
    ⟨rfl, trivial, by decide +kernel⟩
  have promoted : (Tree.promote ⟨3, 0⟩ ⟨World.chained.trees (), World.chained.lp⟩).result =
      .ok .fork := by
    decide +kernel
  have loaded : World.chained.lp.loadedRows = [⟨1, 0⟩, ⟨2, 0⟩] := by
    decide +kernel
  have reconstructed := lpRows_reconstructed plays.reachable step promoted
  rw [show (World.initial.after chaining).lp.loadedRows = _ from loaded] at reconstructed
  obtain ⟨rows, later⟩ := reconstructed
  have run : Run (fun w call => Unflattened () w call ∧ (w.trees ()).contains ⟨3, 0⟩ = true)
      World.extended World.departed := by
    apply Plays.run
    exact ⟨⟨(fun _ same => nomatch same), by decide +kernel⟩, by decide +kernel, by decide +kernel,
      ⟨(fun _ same => nomatch same), by decide +kernel⟩, by decide +kernel, by decide +kernel,
      ⟨(fun _ same => nomatch same), by decide +kernel⟩, by decide +kernel, by decide +kernel,
      trivial⟩
  obtain ⟨rows', children⟩ := later World.departed run (by decide +kernel)
  have created : (Tree.createLeaf ⟨3, 0⟩ ⟨0, 0⟩
      ⟨World.departed.trees (), World.departed.lp⟩).result = .ok ⟨2, 1⟩ := by
    decide +kernel
  have born : Step (.tree () (.createLeaf ⟨3, 0⟩ ⟨0, 0⟩)) World.departed
      (World.departed.after [.tree () (.createLeaf ⟨3, 0⟩ ⟨0, 0⟩)]) :=
    ⟨rfl, trivial, by decide +kernel⟩
  exact ⟨by decide +kernel, rows, by decide +kernel, rows', children _ _ _ born created⟩

end BranchCutPrice
