import BranchCutPrice.Proofs.CallEdits
import BranchCutPrice.Proofs.Filing
import BranchCutPrice.Proofs.Runs

/-!
The trees of every world are orderly: bounds grow from parents to children, and the queue says of
its leaves what the nodes say. In a world nodes keep their parents, which are older than they
are.
-/

namespace BranchCutPrice

open BranchCutPrice.Action BranchCutPrice.Tree World

/-- The bounds of a tree are in order, and so is its queue. -/
structure Tree.Orderly (tree : Tree) : Prop where
  graded : tree.Graded
  filed : tree.Filed

namespace Tree

variable {tree tree' : Tree} {may : Set Deed}

theorem Orderly.empty (settings : TreeSettings) : (Tree.empty settings).Orderly :=
  ⟨.empty settings, .empty settings⟩

/-- The queue of an orderly tree agrees with its nodes. -/
theorem Orderly.tidy (orderly : tree.Orderly) : tree.Tidy where
  queued entry member := by
    obtain ⟨node, found, leaf, bound, seq, _⟩ := orderly.filed.entries entry member
    rw [leafAt_found found, Node.leaf?_leaf leaf, bound, seq]
  distinct := orderly.filed.distinct
  seqs id seq bound there := by
    unfold leafAt at there
    obtain ⟨node, found, leaf⟩ := Option.bind_eq_some_iff.1 there
    have young := orderly.graded.seqs id node found
    unfold Node.leaf? at leaf
    split at leaf
    · cases leaf
      exact young
    · cases leaf

theorem Edited.orderly (edited : Edited may False tree tree') (orderly : tree.Orderly)
    (fits : tree'.nodes.Fits) : tree'.Orderly :=
  ⟨(edited.later orderly.graded fits).1, edited.filed orderly.filed orderly.graded fits⟩

/-- Every node that has a parent is younger than that, which is there. -/
def Rooted (tree : Tree) : Prop :=
  ∀ id node above, tree.nodes.get? id = some node → node.parent = some above →
    ∃ upper, tree.nodes.get? above = some upper ∧ upper.seq < node.seq

theorem Keeps.rooted (keeps : tree.Keeps tree') (rooted : tree.Rooted)
    (stays : ∀ id node, tree.nodes.get? id = some node →
      ∃ later, tree'.nodes.get? id = some later ∧ later.seq = node.seq) : tree'.Rooted := by
  intro id later above here parent
  obtain ⟨node, found, follows⟩ := keeps.nodes id later here
  obtain ⟨upper, foundUpper, older⟩ := rooted id node above found (follows.parent.symm.trans parent)
  obtain ⟨laterUpper, hereUpper, seq⟩ := stays above upper foundUpper
  refine ⟨laterUpper, hereUpper, ?_⟩
  rw [seq, follows.seq]
  exact older

theorem Bears.rooted {child : Node} (bears : tree.Bears child tree') (rooted : tree.Rooted)
    (graded : tree.Graded) (fits : tree'.nodes.Fits) : tree'.Rooted := by
  intro id node above here parent
  have under : ∃ upper, tree.nodes.get? above = some upper ∧ upper.seq < node.seq := by
    obtain ⟨_, rfl⟩ | found := bears.cases graded.sound fits here
    · obtain ⟨top, _⟩ | ⟨above', upper, link, found, _⟩ := heritage_ok bears.inherits
      · rw [top] at parent
        cases parent
      · rw [link] at parent
        cases parent
        exact ⟨upper, found, (graded.seqs _ upper found).trans_eq bears.seq.symm⟩
    · exact rooted id node above found parent
  obtain ⟨upper, found, older⟩ := under
  exact ⟨upper, bears.stays graded.sound fits found, older⟩

/-- Where nothing is removed every node keeps its parent. -/
theorem Edited.rooted {torn : Prop} (edited : Edited may torn tree tree') (spared : .fell ∉ may)
    (rooted : tree.Rooted) (graded : tree.Graded) (fits : tree'.nodes.Fits) : tree'.Rooted := by
  induction edited with
  | refl => exact rooted
  | tail earlier last ih =>
    have fits' := last.slots_le.trans fits
    obtain ⟨graded', _⟩ := later earlier graded fits'
    obtain keeps | ⟨_, child, bears⟩ := last.keeps_or_bears
    · exact keeps.rooted (ih fits') fun id node found =>
        last.stays spared graded'.sound fits found
    · exact bears.rooted (ih fits') graded' fits

/-- Where nothing is created a parent that is still there is still the same node. -/
theorem Edited.rooted_of_shaped {torn : Prop} {loaded : List RowId}
    (edited : Edited may torn tree tree') (barren : .sprout ∉ may) (rooted : tree.Rooted)
    (graded : tree.Graded) (shaped : (tree'.desk loaded).Shaped) : tree'.Rooted := by
  obtain ⟨graded', later⟩ := edited.later graded shaped.fits
  -- nothing in the later tree is new
  have old {id : NodeId} {node : Node} (here : tree'.nodes.get? id = some node) :
      ∃ before, tree.nodes.get? id = some before ∧ before.seq = node.seq ∧
        before.parent = node.parent := by
    obtain new | ⟨before, found, seq, parent, _⟩ := later.nodes id node here
    · have young := graded'.seqs id node here
      rw [edited.nextSeq_eq barren] at young
      omega
    · exact ⟨before, found, seq, parent⟩
  intro id node above here parent
  obtain ⟨upper, hereUpper, _⟩ := shaped.parent id node above here parent
  obtain ⟨before, found, seq, same⟩ := old here
  obtain ⟨beforeUpper, foundUpper, seqUpper, _⟩ := old hereUpper
  obtain ⟨upper', foundUpper', older⟩ := rooted id before above found (same.trans parent)
  rw [foundUpper] at foundUpper'
  cases foundUpper'
  refine ⟨upper, hereUpper, ?_⟩
  rw [← seqUpper, ← seq]
  exact older

end Tree

/-! ### Calls -/

variable {ι : Type} [DecidableEq ι] [Inhabited ι]

namespace Call

/-- Whether a call may create nodes of the tree at a place, or remove some. -/
def edits (q : ι) : Call ι → Set Deed
  | tree p call => if q = p then call.edits else ∅
  | session call => if q = default then call.edits else ∅
  | _ => ∅

theorem edits_oneWay (call : Call ι) (q : ι) :
    .fell ∉ call.edits q ∨ .sprout ∉ call.edits q := by
  cases call with
  | tree p call =>
    simp only [edits]
    split
    · exact call.edits_oneWay
    · simp
  | session call =>
    simp only [edits]
    split
    · exact call.edits_oneWay
    · simp
  | _ => simp [edits]

variable {w : World ι} {owed : Holdings}

/-- Whether a call may move the focus of the tree at a place. -/
def turns (q : ι) : Call ι → Prop
  | tree p call => q = p ∧ call.turns
  | session call => q = default ∧ call.turns
  | _ => False

omit [Inhabited ι] in
/-- An action on a part of the world with one of its trees. -/
theorem part_changed {τ : Type} {part : Part (World ι) τ} (look : τ → Tree) {p : ι}
    {act : Action τ Unit} {may : Set Deed} {turns : Prop} (get : look (part.get w) = w.trees p)
    (set : ∀ t, (part.set w t).trees = Function.update w.trees p (look t))
    (changed : act.Reaches (part.get w) fun t =>
      Changed may False turns (look (part.get w)) (look t))
    (q : ι) : (part.run act).Reaches w fun w' =>
      Changed (if q = p then may else ∅) False (q = p ∧ turns) (w.trees q) (w'.trees q) := by
  apply ensures_run.2
  apply changed.imp
  all_goals
    intro _ t changed
    rw [set]
    by_cases here : q = p
    · subst here
      rw [if_pos rfl, Function.update_self, ← get]
      simpa only [true_and] using changed
    · rw [if_neg here, Function.update_of_ne here]
      exact .rfl

omit [DecidableEq ι] [Inhabited ι] in
/-- An action on a part of the world without its trees. -/
theorem beside_changed {τ : Type} {part : Part (World ι) τ} (act : Action τ Unit)
    (trees : ∀ t, (part.set w t).trees = w.trees) (q : ι) :
    (part.run act).Reaches w fun w' => Changed ∅ False False (w.trees q) (w'.trees q) := by
  apply reaches_iff.2
  change Changed ∅ False False (w.trees q) ((part.set w _).trees q)
  rw [trees]
  exact .rfl

variable [Fintype ι]

theorem perform_changed (call : Call ι) (kept : w.Kept owed) (q : ι) :
    call.perform.Reaches w fun w' =>
      Changed (call.edits q) False (call.turns q) (w.trees q) (w'.trees q) := by
  cases call with
  | tree p call =>
    obtain ⟨_, inside, _⟩ := (treeAt_frames p).enter kept.settled
    refine part_changed Linked.own rfl (fun _ => rfl) ?_ q
    exact (call.perform_changed inside (kept.shaped p)).mono fun _ altered => altered.tree
  | applyCuts p r node limit =>
    have applied : (SeparationRound.apply node limit).Respects
        (Function.onFun (Linked.Alters ∅ False False) SeparationRound.treeBeside) :=
      SeparationRound.apply_changes node limit
    have changed : (applyCuts p r node limit).perform.Reaches w fun w' =>
        Changed (if q = r then ∅ else ∅) False (q = r ∧ False) (w.trees q) (w'.trees q) :=
      part_changed (fun t => t.own.2) rfl (fun _ => rfl)
        ((applied.discard _).mono fun _ altered => altered.tree) q
    simp only [ite_self, and_false] at changed
    exact changed
  | session call =>
    obtain ⟨_, inside, _⟩ := sessionPart_frames.enter kept.settled
    refine part_changed Session.tree rfl (fun _ => rfl) ?_ q
    exact (call.perform_changed inside (kept.shaped default)).mono fun _ altered => altered.tree
  | client call => exact beside_changed call.perform (fun _ => rfl) q
  | rowPool p call => exact beside_changed call.perform (fun _ => rfl) q
  | cutPool p call => exact beside_changed call.perform (fun _ => rfl) q
  | cutRound p call => exact beside_changed call.perform (fun _ => rfl) q
  | separate p r => exact beside_changed (discard CutPool.separate) (fun _ => rfl) q

end Call

/-! ### Steps and runs -/

variable [Fintype ι]

namespace Step

variable {call : Call ι} {w w' : World ι} {owed : Holdings}

theorem changed (step : Step call w w') (kept : w.Kept owed) (q : ι) :
    Changed (call.edits q) False (call.turns q) (w.trees q) (w'.trees q) := by
  have reached := reaches_iff.1 (call.perform_changed kept q)
  rw [step.performed] at reached
  exact reached

theorem edited (step : Step call w w') (kept : w.Kept owed) (q : ι) :
    Edited (call.edits q) False (w.trees q) (w'.trees q) :=
  (step.changed kept q).edited

theorem orderly (step : Step call w w') (kept : w.Kept owed) (q : ι)
    (orderly : (w.trees q).Orderly) : (w'.trees q).Orderly :=
  (step.edited kept q).orderly orderly (step.roomy.nodes q).fits

theorem rooted (step : Step call w w') (kept : w.Kept owed) (q : ι)
    (orderly : (w.trees q).Orderly) (rooted : (w.trees q).Rooted) : (w'.trees q).Rooted := by
  have edited := step.edited kept q
  obtain spared | barren := call.edits_oneWay q
  · exact edited.rooted spared rooted orderly.graded (step.roomy.nodes q).fits
  · obtain ⟨_, kept', _⟩ := step.kept kept
    exact edited.rooted_of_shaped barren rooted orderly.graded (kept'.shaped q)

end Step

variable {rule : Rule ι} {w : World ι}

theorem Reachable.orderly (reached : Reachable rule w) (q : ι) :
    (w.trees q).Orderly ∧ (w.trees q).Rooted := by
  obtain ⟨start, fresh, run⟩ := reached
  refine run.preserves fresh.kept (P := fun w => (w.trees q).Orderly ∧ (w.trees q).Rooted) ?_ ?_
  · intro u v call owed kept _ step earlier
    exact ⟨step.orderly kept q earlier.1, step.rooted kept q earlier.1 earlier.2⟩
  · obtain ⟨settings, empty⟩ := fresh.trees q
    rw [empty]
    refine ⟨.empty settings, fun id node above found => ?_⟩
    simp [Tree.empty] at found

end BranchCutPrice
