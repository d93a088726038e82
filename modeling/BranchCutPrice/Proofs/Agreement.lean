import BranchCutPrice.Proofs.Snapshots

/-!
Agreement of the focus with the loaded rows. If only one tree uses the relaxation, and the
client leaves the loaded rows alone while it has a focus, then the rows of the focus are
loaded. So every node can become the focus, and flattening changes no relaxation.
-/

namespace BranchCutPrice

open BranchCutPrice.Action

variable {ι : Type} [DecidableEq ι] [Inhabited ι]

/-- A single tree is used, no search is started twice, and the loaded rows are edited
directly only while that tree has no focus. -/
def Sole (w : World ι) : Call ι → Prop
  | .client call => call.editsRows = true → (w.trees default).focus = none
  | .tree p _ => p = default
  | .applyCuts _ p _ _ => p = default
  | .session call => call.Timely w.session
  | _ => True

instance (w : World ι) : (call : Call ι) → Decidable (Sole w call)
  | .client call =>
      inferInstanceAs (Decidable (call.editsRows = true → (w.trees default).focus = none))
  | .tree p _ | .applyCuts _ p _ _ => inferInstanceAs (Decidable (p = default))
  | .session call => inferInstanceAs (Decidable (call.Timely w.session))
  | .rowPool _ _ | .cutPool _ _ | .cutRound _ _ | .separate _ _ => isTrue trivial

theorem Call.reload_notMem {w : World ι} {call : Call ι} (sole : Sole w call) :
    .reload ∉ call.deeds w default := by
  cases call with
  | client call =>
    simp only [deeds]
    split
    next apart => exact absurd (sole apart.1) apart.2
    next => simp
  | tree p call =>
    simp only [deeds]
    rw [if_pos (Eq.symm sole)]
    cases call <;> simp [TreeCall.deeds]
  | applyCuts _ p =>
    simp only [deeds]
    rw [if_pos (Eq.symm sole)]
    simp
  | session call =>
    simp only [deeds, if_pos]
    cases call with
    | start =>
      have bare : w.session.tree.root = none := sole
      simp [SessionCall.deeds, bare]
    | _ => simp [SessionCall.deeds]
  | rowPool | cutPool | cutRound | separate => simp [deeds]

/-- The relaxation is that of the focus, and every other node can become the focus. -/
structure Tree.Aligned (tree : Tree) (lp : Relaxation) : Prop where
  focus : ∀ id, tree.focus = some id → tree.lpRows id = .ok lp.loadedRows
  distinct : ∀ id, tree.contains id = true → ∃ rows, tree.lpRows id = .ok rows ∧ rows.Nodup
  focusable : ∀ id, tree.contains id = true →
    ∃ edits, (Tree.focusOn id ⟨tree, lp⟩).result = .ok edits
  /-- Nothing but the recorded rows was added to the relaxation of the parent. -/
  extended : ∀ id node, tree.getLeaf id = .ok node → tree.focus = some id →
    tree.extendedRows node = .ok lp.loadedRows
  flattened : ∀ id, (Tree.forkToSubroot id ⟨tree, lp⟩).result = .ok () →
    ∀ other, tree.contains other = true →
      (Tree.forkToSubroot id ⟨tree, lp⟩).state.own.lpRows other = tree.lpRows other

theorem Desk.Coherent.empty (settings : TreeSettings) (loaded : List RowId) :
    ((Tree.empty settings).desk loaded).Coherent where
  focus id focus := by simp [Tree.empty, Tree.desk] at focus
  distinct id rows replays := by
    obtain ⟨node, found⟩ := replays.live
    simp [Tree.empty, Tree.desk] at found

variable [Fintype ι] {w w' : World ι} {owed : Holdings}

theorem Reachable.coherent (reached : Reachable Sole w) : (w.desk default).Coherent := by
  obtain ⟨start, fresh, run⟩ := reached
  apply run.preserves fresh.kept
  · intro w w' call owed kept sole step coherent
    exact (step.moves kept default).coherent (Call.reload_notMem sole) (kept.shaped default)
      (step.roomy.nodes default).fits coherent
  · obtain ⟨settings, empty⟩ := fresh.trees default
    unfold World.desk
    rw [empty]
    exact .empty settings _

namespace Tree

variable {tree : Tree} {lp : Relaxation} {id : NodeId}

theorem lpRows_of_coherent (shaped : (tree.desk lp.loadedRows).Shaped)
    (coherent : (tree.desk lp.loadedRows).Coherent) (live : tree.contains id = true) :
    ∃ rows, tree.lpRows id = .ok rows ∧ rows.Nodup := by
  obtain ⟨node, found⟩ := SlotTable.contains_iff.1 live
  obtain ⟨rows, listed, replays⟩ := lpRows_live shaped found
  exact ⟨rows, listed, coherent.distinct id rows replays⟩

theorem focusOn_of_coherent (settled : Settled (Linked.mk tree lp) owed)
    (shaped : (tree.desk lp.loadedRows).Shaped) (coherent : (tree.desk lp.loadedRows).Coherent)
    (live : tree.contains id = true) :
    ∃ edits, (focusOn id ⟨tree, lp⟩).result = .ok edits := by
  have never : (focusOn id).Ensures ⟨tree, lp⟩ (fun _ _ => True) fun _ _ => False := by
    apply (focusOn_ensures settled shaped id).imp
    · intro _ _ _
      trivial
    · intro _ _ refused
      obtain stale | ⟨rows, replays, repeated⟩ := refused.2
      · exact absurd (live.symm.trans stale) (by decide)
      · exact repeated (coherent.distinct id rows replays)
  obtain ⟨edits, ended, _⟩ := ensures_never never
  exact ⟨edits, ended⟩

theorem extendedRows_of_coherent {node : Node} (shaped : (tree.desk lp.loadedRows).Shaped)
    (coherent : (tree.desk lp.loadedRows).Coherent) (found : tree.getLeaf id = .ok node)
    (focus : tree.focus = some id) : tree.extendedRows node = .ok lp.loadedRows := by
  obtain ⟨here, basis, added, leaf⟩ := getLeaf_ok.1 found
  have computed : ∃ rows, tree.extendedRows node = .ok rows := by
    unfold extendedRows
    cases parent : node.parent with
    | none => exact ⟨_, rfl⟩
    | some above =>
      obtain ⟨upper, foundUpper, _⟩ := shaped.parent id node above here parent
      obtain ⟨rows, listed, _⟩ := lpRows_live shaped foundUpper
      refine ⟨rows ++ node.payload.added, ?_⟩
      simp [listed, bind, Except.bind, pure, Except.pure]
  obtain ⟨rows, extended⟩ := computed
  have replays := replays_of_extendedRows here leaf extended
  rw [extended, replays.unique (coherent.focus id focus)]
  rfl

/-- Flattening the focus writes down the rows that it has anyway. -/
theorem lpRows_flatten (settled : Settled (Linked.mk tree lp) owed)
    (shaped : (tree.desk lp.loadedRows).Shaped) (coherent : (tree.desk lp.loadedRows).Coherent)
    (flattened : (forkToSubroot id ⟨tree, lp⟩).result = .ok ()) {other : NodeId}
    (live : tree.contains other = true) :
    (forkToSubroot id ⟨tree, lp⟩).state.own.lpRows other = tree.lpRows other := by
  obtain ⟨_, _, _, _, _, focus, _⟩ := ensures_of_ok flattened (forkToSubroot_ensures settled id)
  obtain ⟨own, written⟩ := forkToSubroot_flattens settled shaped flattened
  by_cases rests : tree.RestsOn id other
  · have loaded : lp.loadedRows = own :=
      (coherent.focus id focus).unique (replays_of_lpRows written.listed)
    exact (written.kept other rests).2 loaded
  · exact written.beside other live rests

end Tree

/-- While a single tree uses the relaxation, the loaded rows are those of its focus. -/
theorem focus_aligned (reached : Reachable Sole w) : (w.trees default).Aligned w.lp := by
  have coherent : ((w.trees default).desk w.lp.loadedRows).Coherent := reached.coherent
  obtain ⟨_, settled, shaped⟩ := reached.linked default
  constructor
  · intro id focus
    exact (Tree.lpRows_eq shaped).2 (coherent.focus id focus)
  · intro id live
    exact Tree.lpRows_of_coherent shaped coherent live
  · intro id live
    exact Tree.focusOn_of_coherent settled shaped coherent live
  · intro id node found focus
    exact Tree.extendedRows_of_coherent shaped coherent found focus
  · intro id flattened other live
    exact Tree.lpRows_flatten settled shaped coherent flattened live

theorem focus_aligned_branched :
    Reachable Sole (World.initial.after (rooting ++ branching)) ∧
      ((World.initial.after (rooting ++ branching)).trees ()).Aligned
        (World.initial.after (rooting ++ branching)).lp := by
  have plays : Plays Sole World.initial (rooting ++ branching) := by
    decide
  exact ⟨plays.reachable, focus_aligned plays.reachable⟩

end BranchCutPrice
