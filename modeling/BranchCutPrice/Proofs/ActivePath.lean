import BranchCutPrice.Proofs.Trails

/-!
The active path of a tree in every world, along every run. Marks, path and focus agree after each
call, and until a call moves the focus the path only loses its end.
-/

namespace BranchCutPrice

open BranchCutPrice.Action BranchCutPrice.Tree World

/-- The active path is the way from the root to the focus or, if the focus is gone, to a node
above it. -/
structure Tree.Tracked (tree : Tree) : Prop where
  live : ∀ id ∈ tree.activePath, ∃ node, tree.nodes.get? id = some node
  distinct : tree.activePath.Nodup
  root : ∀ id, tree.activePath.head? = some id → tree.root = some id
  links : tree.activePath.IsChain fun above id =>
    ∃ node, tree.nodes.get? id = some node ∧ node.parent = some above
  marks : ∀ id node, tree.nodes.get? id = some node →
    (node.active = true ↔ id ∈ tree.activePath)
  focus : ∀ id, tree.focus = some id →
    (∃ node, tree.nodes.get? id = some node) ∧ tree.activePath.getLast? = some id
  whole : ∀ id, tree.activePath.getLast? = some id → tree.pathTo id = .ok tree.activePath

namespace Tree

variable {tree : Tree}

theorem Trailed.tracked (trailed : tree.Trailed) (rooted : tree.Rooted) {loaded : List RowId}
    (shaped : (tree.desk loaded).Shaped) : tree.Tracked := by
  have ascends := trailed.ascends rooted
  constructor
  · exact trailed.live
  · exact List.nodup_reverse.1 ascends.nodup
  · intro id first
    rw [← List.getLast?_reverse] at first
    obtain ⟨node, found, parent⟩ := ascends.top first
    exact (shaped.top id node found parent).2
  · exact List.isChain_reverse.1 ascends.isChain
  · exact trailed.marks
  · intro id focus
    have last := trailed.focus id focus
    exact ⟨trailed.live id (List.mem_of_getLast? last), last⟩
  · intro id last
    rw [← List.head?_reverse] at last
    exact ascends.pathTo shaped last

end Tree

/-! ### Steps -/

/-- The node that is taken up becomes the focus last, after those that are pruned are gone. -/
theorem Session.nextAmong_still (remaining : Nat) {s : Session} :
    (nextAmong remaining).Reaches s fun s' =>
      s'.tree.focus = none → Changed {.fell} False False s.tree s'.tree := by
  induction remaining generalizing s with
  | zero => exact fun _ => .rfl
  | succ remaining ih =>
    have pops : (treePart.run popLeaf).Respects (Session.Alters {.fell} False False True False) :=
      popLeaf_changes.treePart
    unfold Reaches nextAmong
    rw [ensures_bind]
    apply (pops s).imp
    · intro popped s₁ altered₁
      split
      · exact fun _ => altered₁.tree
      · rename_i id
        rw [ensures_bind, ensures_read]
        refine ⟨fun node _ => ?_, fun _ _ _ => altered₁.tree⟩
        rw [ensures_bind, ensures_get]
        split
        · have frees : (onTree (freeNode id)).Respects
              (Session.Alters {.fell} False False True False) :=
            (freeNode_changes (Set.mem_singleton _) id).onTree
          rw [ensures_bind]
          apply (frees s₁).imp
          · intro _ s₂ altered₂
            rw [ensures_bind, ensures_modify]
            apply Reaches.mono ih
            intro s₃ later loose
            exact altered₁.tree.trans (altered₂.tree.trans (later loose))
          · intro _ s₂ altered₂ _
            exact altered₁.tree.trans altered₂.tree
        · have focuses : (do
              let _ ← onTree (focusOn id)
              modify fun s : Session => { s with processed := s.processed + 1 }
              reportProgress
              return some id : Action Session (Option NodeId)).Respects
                (Session.Alters ∅ False True True False) := by
            apply (focusOn_changes trivial id).onTree.bind
            intro _
            apply (respects_modify fun _ => ⟨.rfl, .rfl, fun _ => ⟨rfl, rfl⟩⟩).bind
            intro _
            exact reportProgress_changes.bind fun _ => respects_pure _
          apply Reaches.mono (focuses s₁)
          intro s₂ altered₂ loose
          exact altered₁.tree.trans
            (altered₂.tree.still (Set.notMem_empty _) (Set.empty_subset _) loose)
    · intro _ s₁ altered₁ _
      exact altered₁.tree

theorem SessionCall.nextNode_still (s : Session) : SessionCall.nextNode.perform.Reaches s fun s' =>
    s'.tree.focus = none → Changed {.fell} False False s.tree s'.tree := by
  apply discard_reaches.2
  unfold Reaches Session.nextNode
  rw [ensures_bind, ensures_get]
  exact Session.nextAmong_still _

variable {ι : Type} [DecidableEq ι] [Inhabited ι]

/-- Only the choice of the next node may both remove nodes and move the focus. -/
theorem Call.turns_or (call : Call ι) (q : ι) : .fell ∉ call.edits q ∨ ¬call.turns q ∨
    call = .session .nextNode ∧ q = default := by
  cases call with
  | tree p call =>
    by_cases here : q = p
    · cases call <;> simp [edits, turns, TreeCall.edits, TreeCall.turns, here]
    · simp [edits, here]
  | session call =>
    by_cases here : q = default
    · cases call <;> simp [edits, turns, SessionCall.edits, SessionCall.turns, here]
    · simp [edits, here]
  | client | rowPool | cutPool | cutRound | separate | applyCuts => simp [edits]

variable [Fintype ι] {call : Call ι} {w w' : World ι} {owed : Holdings}

/-- Where there is no focus after a step the step did not move it. -/
theorem Step.still (step : Step call w w') (kept : w.Kept owed) (q : ι)
    (loose : (w'.trees q).focus = none) :
    Changed (call.edits q) False False (w.trees q) (w'.trees q) := by
  have changed := step.changed kept q
  obtain spared | still | ⟨rfl, rfl⟩ := call.turns_or q
  · exact changed.still spared (Set.Subset.refl _) loose
  · rwa [eq_false still] at changed
  · have chosen : (Call.session .nextNode).perform.Reaches w fun w' =>
        (w'.trees default).focus = none →
          Changed {.fell} False False (w.trees default) (w'.trees default) := by
      apply ensures_run.2
      apply Reaches.mono (SessionCall.nextNode_still w.session)
      intro s later
      change ((Function.update w.trees default s.tree) default).focus = none →
        Changed {.fell} False False (w.trees default)
          (Function.update w.trees default s.tree default)
      rw [Function.update_self]
      exact later
    have reached := reaches_iff.1 chosen
    rw [step.performed] at reached
    have edits : (Call.session .nextNode : Call ι).edits default = {.fell} := if_pos rfl
    rw [edits]
    exact reached loose

theorem Step.trailed (step : Step call w w') (kept : w.Kept owed) (q : ι)
    (orderly : (w.trees q).Orderly) (trailed : (w.trees q).Trailed) : (w'.trees q).Trailed :=
  (step.changed kept q).trailed trailed orderly.graded (step.roomy.nodes q).fits

/-! ### Runs -/

variable {rule : Rule ι}

theorem Reachable.trailed (reached : Reachable rule w) (q : ι) : (w.trees q).Trailed := by
  obtain ⟨start, fresh, run⟩ := reached
  have both : (w.trees q).Orderly ∧ (w.trees q).Trailed := by
    refine run.preserves fresh.kept (P := fun w => (w.trees q).Orderly ∧ (w.trees q).Trailed) ?_ ?_
    · intro u v call owed kept _ step earlier
      exact ⟨step.orderly kept q earlier.1, step.trailed kept q earlier.1 earlier.2⟩
    · obtain ⟨settings, empty⟩ := fresh.trees q
      rw [empty]
      exact ⟨.empty settings, .empty settings⟩
  exact both.2

/-- Steps after each of which the tree at a place has no focus. -/
def Unfocused (rule : Rule ι) (q : ι) : World ι → World ι → Prop :=
  Relation.ReflTransGen fun w w' =>
    (∃ call, rule w call ∧ Step call w w') ∧ (w'.trees q).focus = none

theorem Unfocused.carries {q : ι} (run : Unfocused rule q w w') (reached : Reachable rule w) :
    Reachable rule w' ∧ (w.trees q).Carries (w'.trees q) := by
  induction run with
  | refl => exact ⟨reached, .rfl⟩
  | tail _ last ih =>
    obtain ⟨⟨call, allowed, step⟩, loose⟩ := last
    obtain ⟨reached', carries⟩ := ih
    obtain ⟨_, kept, _⟩ := reached'.kept
    have later := (step.still kept q loose).carries (reached'.trailed q)
      (reached'.orderly q).1.graded (step.roomy.nodes q).fits
    exact ⟨reached'.step allowed step, carries.trans later⟩

/-- The active path is the whole way to the focus, and once the focus is gone it is the way to
the nearest node above it that is still there. -/
theorem active_path_tracked (reached : Reachable rule w) (q : ι) :
    (w.trees q).Tracked ∧
      ∀ w', Unfocused rule q w w' → (w.trees q).Shortens (w'.trees q) ∧ (w'.trees q).Tracked := by
  have tracked {u : World ι} (reached : Reachable rule u) : (u.trees q).Tracked := by
    obtain ⟨_, kept, _⟩ := reached.kept
    exact (reached.trailed q).tracked (reached.orderly q).2 (kept.shaped q)
  refine ⟨tracked reached, fun w' run => ?_⟩
  obtain ⟨reached', carries⟩ := run.carries reached
  obtain ⟨orderly, rooted⟩ := reached.orderly q
  have shortens := carries.shortens (reached.trailed q) (reached'.trailed q) rooted
    (reached'.orderly q).2 orderly.graded
  exact ⟨shortens, tracked reached'⟩

/-- Moves the focus to a leaf below the root. -/
def descending : List (Call Unit) :=
  [.tree () (.focusOn ⟨1, 0⟩)]

/-- The focus is a leaf below the root. -/
def World.descended : World Unit :=
  World.initial.after (rooting ++ branching ++ descending)

/-- The focus is removed. -/
def World.bereaved : World Unit :=
  World.descended.after [.tree () (.freeNode ⟨1, 0⟩)]

theorem active_path_tracked_bereaved : Reachable (fun _ _ => True) World.descended ∧
    (World.descended.trees ()).activePath = [⟨0, 0⟩, ⟨1, 0⟩] ∧
      (World.bereaved.trees ()).activePath = [⟨0, 0⟩] ∧ (World.descended.trees ()).Tracked ∧
        (World.descended.trees ()).Shortens (World.bereaved.trees ()) := by
  have plays : Plays (fun _ _ => True) World.initial (rooting ++ branching ++ descending) := by
    decide +kernel
  have reached : Reachable (fun _ _ => True) World.descended := plays.reachable
  have roomy : World.bereaved.Roomy := by
    decide +kernel
  have step : Step (.tree () (.freeNode ⟨1, 0⟩)) World.descended World.bereaved :=
    ⟨rfl, trivial, roomy⟩
  have loose : (World.bereaved.trees ()).focus = none := by
    decide +kernel
  have run : Unfocused (fun _ _ => True) () World.descended World.bereaved :=
    .single ⟨⟨_, trivial, step⟩, loose⟩
  obtain ⟨tracked, later⟩ := active_path_tracked reached ()
  exact ⟨reached, by decide +kernel, by decide +kernel, tracked, (later _ run).1⟩

end BranchCutPrice
