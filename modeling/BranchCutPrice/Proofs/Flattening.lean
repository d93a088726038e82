import BranchCutPrice.Proofs.Orderly
import BranchCutPrice.Proofs.Rebuilding

/-!
How many deltas the relaxation of a node takes. Promotion counts those of the promoted node
alone and stores its rows once they are too many. As nothing makes them more afterwards, the
limit of the policy holds for all nodes.
-/

namespace BranchCutPrice

open BranchCutPrice.Action

theorem SubrootPolicy.chain_lt {policy : SubrootPolicy} {chain delta loaded : Nat}
    (positive : 0 < policy.maxForkChain)
    (spared : policy.shouldFlatten chain delta loaded = false) : chain < policy.maxForkChain := by
  simp only [shouldFlatten, Bool.or_eq_false_iff, Bool.and_eq_false_iff, decide_eq_false_iff_not]
    at spared
  omega

/-! ### Promotion -/

theorem Tree.Converted.matures {s s' : Linked Tree} {owed : Holdings} {id : NodeId} {node : Node}
    {payload : Payload} (converted : Converted s s' owed id node payload)
    (found : s.own.nodes.get? id = some node) (delta : node.payload.isSubroot = false) :
    Matures {id} s.own.nodes s'.own.nodes := by
  rw [converted.nodes]
  refine Matures.rfl.set found rfl (fun subroot => ?_) fun _ => .inl (Set.mem_singleton id)
  rw [delta] at subroot
  cases subroot

/-- A new fork has fewer deltas than the limit, and a new subroot has none. -/
theorem Tree.Promoted.shallow {s s' : Linked Tree} {id : NodeId} (promoted : Promoted s s' id)
    (shaped : s.desk.Shaped) (positive : 0 < s.own.settings.policy.maxForkChain)
    (shallow : Shallow s.own.settings.policy.maxForkChain s.own.nodes) :
    Shallow s.own.settings.policy.maxForkChain s'.own.nodes := by
  have moves := Moves.one promoted.move (Set.mem_singleton Deed.solve)
  have shaped' : (s'.own.desk s'.lp.loadedRows).Shaped :=
    moves.shaped_of_shrinking (by simp) shaped
  cases promoted with
  | subroot found leaf _ converted =>
    refine shallow.mature shaped (converted.matures found (by rw [leaf]; rfl)) ?_
    rintro _ rfl base deltas rebuilds
    rw [rebuilds.length_eq (.stored (converted.found found) rfl)]
    exact positive
  | fork found leaf converted _ counted spared =>
    refine shallow.mature shaped (converted.matures found (by rw [leaf]; rfl)) ?_
    rintro _ rfl base deltas rebuilds
    obtain ⟨base', deltas', rebuilds', _, chain⟩ := rebuilds_live shaped' (converted.found found)
    rw [counted] at chain
    cases chain
    rw [rebuilds.length_eq rebuilds']
    exact SubrootPolicy.chain_lt positive spared

theorem Session.Branched.shallow {s s' : Session} {id : NodeId} (branched : s.Branched s' id)
    (shaped : s.desk.Shaped) (fits : s'.tree.nodes.Fits)
    (positive : 0 < s.tree.settings.policy.maxForkChain)
    (shallow : Shallow s.tree.settings.policy.maxForkChain s.tree.nodes) :
    Shallow s.tree.settings.policy.maxForkChain s'.tree.nodes := by
  obtain ⟨middle, rfl | promoted, moves⟩ := branched
  · exact Shallow.moves shallow moves (by simp) shaped fits
  · have solved := Moves.one promoted.move (Set.mem_singleton Deed.solve)
    have shaped' : middle.desk.Shaped := solved.shaped_of_shrinking (by simp) shaped
    have shallow' := promoted.shallow shaped positive shallow
    exact Shallow.moves shallow' moves (by simp) shaped' fits

/-! ### Calls -/

variable {ι : Type} [DecidableEq ι] [Inhabited ι]

/-- Whether a call makes a leaf of the tree at a place a fork without promoting it. -/
def Call.forks (p : ι) : Call ι → Bool
  | tree q (.leafToFork _) => q = p
  | _ => false

/-- Anything may be called, except that leaves at one place become forks only by promotion. -/
def Promoting (p : ι) : Rule ι :=
  fun _ call => call.forks p = false

instance (p : ι) (w : World ι) (call : Call ι) : Decidable (Promoting p w call) :=
  inferInstanceAs (Decidable (_ = false))

/-- The calls that solve leaves. -/
theorem Call.solves {p : ι} {w : World ι} {call : Call ι} (allowed : Promoting p w call) :
    .solve ∉ call.deeds w p ∨ (∃ id, call = .tree p (.promote id)) ∨
      ∃ id children, p = default ∧ call = .session (.branch id children) := by
  cases call with
  | client call | applyCuts =>
    left
    simp only [deeds]
    split <;> simp
  | tree q call =>
    by_cases here : p = q
    · subst here
      cases call with
      | promote id => exact .inr (.inl ⟨id, rfl⟩)
      | leafToFork id => exact absurd allowed (by simp [Promoting, forks])
      | _ => simp [deeds, TreeCall.deeds]
    · simp [deeds, here]
  | session call =>
    by_cases here : p = default
    · cases call with
      | branch id children => exact .inr (.inr ⟨id, children, here, rfl⟩)
      | start =>
        by_cases bare : w.session.tree.root = none
        · simp [deeds, here, SessionCall.deeds, bare]
        · simp [deeds, here, SessionCall.deeds, bare]
      | _ => simp [deeds, here, SessionCall.deeds]
    · simp [deeds, here]
  | rowPool | cutPool | cutRound | separate => simp [deeds]

variable [Fintype ι] {p : ι} {w w' : World ι} {owed : Holdings} {id : NodeId} {node : Node}

namespace Step

theorem promotes (step : Step (.tree p (.promote id)) w w') (kept : w.Kept owed) :
    w'.trees p = w.trees p ∨ ∃ t, Tree.Promoted ⟨w.trees p, w.lp⟩ t id ∧ w'.trees p = t.own := by
  obtain ⟨_, settled, _⟩ := (World.treeAt_frames p).enter kept.settled
  have promotes : (discard (Tree.promote id)).Reaches (Linked.mk (w.trees p) w.lp) fun t =>
      t = ⟨w.trees p, w.lp⟩ ∨ Tree.Promoted ⟨w.trees p, w.lp⟩ t id := by
    apply discard_reaches.2
    apply (Tree.promote_converts settled (kept.shaped p) id).imp
    · intro _ _ done
      exact .inr done.2
    · intro _ _ same
      exact .inl same
  obtain same | promoted := reaches_iff.1 promotes
  · exact .inl (step.tree.trans (congrArg Linked.own same))
  · exact .inr ⟨_, promoted, step.tree⟩

theorem branches {children : List (List BoundChange)}
    (step : Step (.session (.branch id children)) w w') (kept : w.Kept owed) :
    w.session.Branched w'.session id := by
  obtain ⟨_, settled, _⟩ := World.sessionPart_frames.enter kept.settled
  have branches := discard_reaches.2
    (Session.branch_grows settled (kept.shaped default) kept.roomy.lp.bases id children)
  rw [step.session]
  exact (reaches_iff.1 branches).2

/-- No call makes a solved node take as many deltas as the policy limits them to. -/
theorem shallow {call : Call ι} (step : Step call w w') (allowed : Promoting p w call)
    (kept : w.Kept owed) (positive : 0 < (w.trees p).settings.policy.maxForkChain)
    (shallow : Shallow (w.trees p).settings.policy.maxForkChain (w.trees p).nodes) :
    Shallow (w.trees p).settings.policy.maxForkChain (w'.trees p).nodes := by
  have fits := (step.roomy.nodes p).fits
  obtain other | ⟨id, rfl⟩ | ⟨id, children, rfl, rfl⟩ := Call.solves allowed
  · exact Shallow.moves shallow (step.moves kept p) other (kept.shaped p) fits
  · obtain same | ⟨t, promoted, tree⟩ := step.promotes kept
    · rw [same]
      exact shallow
    · rw [tree]
      exact promoted.shallow (kept.shaped p) positive shallow
  · exact (step.branches kept).shallow (kept.shaped default) fits positive shallow

end Step

theorem Reachable.shallow (reached : Reachable (Promoting p) w)
    (positive : 0 < (w.trees p).settings.policy.maxForkChain) :
    Shallow (w.trees p).settings.policy.maxForkChain (w.trees p).nodes := by
  obtain ⟨start, fresh, run⟩ := reached
  refine run.preserves fresh.kept (P := fun w =>
    0 < (w.trees p).settings.policy.maxForkChain →
      Shallow (w.trees p).settings.policy.maxForkChain (w.trees p).nodes) ?_ ?_ positive
  · intro u v call owed kept allowed step earlier positive
    have settings := (step.edited kept p).settings_eq
    rw [settings] at positive ⊢
    exact step.shallow allowed kept positive (earlier positive)
  · obtain ⟨settings, empty⟩ := fresh.trees p
    rw [empty]
    intro _ id node base deltas found
    simp [Tree.empty] at found

/-- The relaxation of any node is rebuilt from one complete list, or from none at the root, and
no more deltas than the policy limits chains of forks to. A fork takes less. -/
theorem deltas_bounded (reached : Reachable (Promoting p) w)
    (positive : 0 < (w.trees p).settings.policy.maxForkChain)
    (live : (w.trees p).node id = .ok node) :
    ∃ base deltas, Rebuilds (w.trees p).nodes id base deltas ∧
      (w.trees p).lpRows id = .ok (base ++ deltas.flatten) ∧
      (w.trees p).deltaChain id = .ok (deltas.length, deltas.flatten.length) ∧
      deltas.length ≤ (w.trees p).settings.policy.maxForkChain ∧
      (node.kind = .fork → deltas.length ≤ (w.trees p).settings.policy.maxForkChain - 1) := by
  have shallow := reached.shallow positive
  obtain ⟨_, kept, _⟩ := reached.kept
  have shaped : ((w.trees p).desk w.lp.loadedRows).Shaped := kept.shaped p
  have found := Tree.node_ok.1 live
  obtain ⟨base, deltas, rebuilds, rows, chain⟩ := Tree.rebuilds_live shaped found
  refine ⟨base, deltas, rebuilds, rows, chain, ?_, fun fork => ?_⟩
  · exact Shallow.length_le shallow shaped positive rebuilds
  · have inner : node.kind ≠ .leaf := by
      rw [fork]
      decide
    exact Nat.le_sub_one_of_lt (shallow id node base deltas found inner rebuilds)

theorem deltas_bounded_branched :
    ∃ base deltas, Rebuilds ((World.initial.after (rooting ++ branching)).trees ()).nodes ⟨1, 0⟩
        base deltas ∧
      ((World.initial.after (rooting ++ branching)).trees ()).deltaChain ⟨1, 0⟩ =
        .ok (deltas.length, deltas.flatten.length) ∧ deltas.length ≤ 8 := by
  have plays : Plays (Promoting ()) World.initial (rooting ++ branching) := by
    decide
  have live : ∃ node, ((World.initial.after (rooting ++ branching)).trees ()).node ⟨1, 0⟩ =
      .ok node := ⟨_, rfl⟩
  obtain ⟨node, live⟩ := live
  obtain ⟨base, deltas, rebuilds, _, chain, bounded, _⟩ :=
    deltas_bounded plays.reachable (by decide) live
  exact ⟨base, deltas, rebuilds, chain, bounded⟩

end BranchCutPrice
