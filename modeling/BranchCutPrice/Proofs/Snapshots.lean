import BranchCutPrice.Proofs.Runs

/-!
Forks that become subroots. What is written down are the loaded rows, whether they are those of
the fork or not. Every node that is rebuilt from the fork has them instead, followed by what is
added below the fork, and no other node is affected.
-/

namespace BranchCutPrice

open BranchCutPrice.Action

variable {nodes : SlotTable .node Node} {id other : NodeId} {node : Node} {own loaded : List RowId}

/-- Above a node that is replaced by a subroot the new rows take the place of the old ones. -/
theorem Replays.replace (found : nodes.get? id = some node) (replays : Replays nodes id own)
    (loaded : List RowId) (children : Nat) {path : List (NodeId × Node)}
    (climbs : Climbs nodes (·.payload.isSubroot) other path) :
    (id ∈ path.map Prod.fst → ∃ rest, Replays nodes other (own ++ rest) ∧
      Replays (nodes.set id { node with payload := .subroot loaded children }) other
        (loaded ++ rest)) ∧
    (id ∉ path.map Prod.fst → ∃ rows, Replays nodes other rows ∧
      Replays (nodes.set id { node with payload := .subroot loaded children }) other rows) := by
  have look := SlotTable.get?_set found { node with payload := .subroot loaded children }
  generalize nodes.set id { node with payload := .subroot loaded children } = nodes' at look ⊢
  have there : Replays nodes' id loaded := .base ((look id).trans (if_pos rfl)) (.inr rfl)
  have here : ∃ rest, Replays nodes id (own ++ rest) ∧ Replays nodes' id (loaded ++ rest) :=
    ⟨[], by rwa [List.append_nil], by rwa [List.append_nil]⟩
  induction climbs with
  | @last other node found' ends =>
    by_cases same : other = id
    · subst same
      exact ⟨fun _ => here, fun absent => absurd List.mem_cons_self absent⟩
    · refine ⟨fun member => absurd (List.mem_singleton.1 member).symm same, fun _ => ?_⟩
      exact ⟨_, .base found' ends, .base ((look other).trans ((if_neg same).trans found')) ends⟩
  | @step other above node path found' parent delta climbs ih =>
    by_cases same : other = id
    · subst same
      exact ⟨fun _ => here, fun absent => absurd List.mem_cons_self absent⟩
    · have found'' := (look other).trans ((if_neg same).trans found')
      constructor
      · intro member
        obtain ⟨rest, before, after⟩ := ih.1 ((List.mem_cons.1 member).resolve_left (Ne.symm same))
        refine ⟨rest ++ node.payload.rows, ?_, ?_⟩
        · rw [← List.append_assoc]
          exact .under found' parent delta before
        · rw [← List.append_assoc]
          exact .under found'' parent delta after
      · intro absent
        obtain ⟨rows, before, after⟩ := ih.2 fun member => absent (List.mem_cons_of_mem _ member)
        exact ⟨_, .under found' parent delta before, .under found'' parent delta after⟩

namespace Tree

variable {tree : Tree} {lp : Relaxation} {owed : Holdings}

/-- The rows of a node are rebuilt from those of another one. -/
def RestsOn (tree : Tree) (id other : NodeId) : Prop :=
  ∃ path, tree.ascend (·.payload.isSubroot) tree.nodes.slots.size other = .ok path ∧
    id ∈ path.map Prod.fst

/-- What becomes of the rows of nodes once the loaded rows are written down at one of them. -/
structure Flattened (tree : Tree) (id : NodeId) (own loaded : List RowId) (tree' : Tree) :
    Prop where
  listed : tree.lpRows id = .ok own
  above : ∀ other, tree.RestsOn id other →
    ∃ rest, tree.lpRows other = .ok (own ++ rest) ∧ tree'.lpRows other = .ok (loaded ++ rest)
  beside : ∀ other, tree.contains other = true → ¬tree.RestsOn id other →
    tree'.lpRows other = tree.lpRows other
  kept : ∀ other, tree.RestsOn id other →
    (tree'.lpRows other = tree.lpRows other ↔ loaded = own)

theorem forkToSubroot_flattens (settled : Settled (Linked.mk tree lp) owed)
    (shaped : (tree.desk lp.loadedRows).Shaped)
    (flattened : (forkToSubroot id ⟨tree, lp⟩).result = .ok ()) :
    ∃ own, Flattened tree id own lp.loadedRows (forkToSubroot id ⟨tree, lp⟩).state.own := by
  obtain ⟨node, added, children, found, fork, focus, converted⟩ :=
    ensures_of_ok flattened (forkToSubroot_ensures settled id)
  generalize (forkToSubroot id ⟨tree, lp⟩).state = after at converted
  have move : Move .flatten (tree.desk lp.loadedRows) after.desk := by
    rw [converted.desk]
    exact .flatten found fork focus
  have shaped' : after.desk.Shaped := by
    have moves : Moves {.flatten} (tree.desk lp.loadedRows) after.desk :=
      .one move (Set.mem_singleton _)
    exact moves.shaped_of_shrinking (by simp) shaped
  obtain ⟨own, listed, replays⟩ := lpRows_live shaped found
  have above (other : NodeId) (rests : tree.RestsOn id other) : ∃ rest,
      tree.lpRows other = .ok (own ++ rest) ∧
        after.own.lpRows other = .ok (lp.loadedRows ++ rest) := by
    obtain ⟨path, walked, member⟩ := rests
    obtain ⟨rest, before, later⟩ :=
      (replays.replace found lp.loadedRows children (climbs_of_ascend walked)).1 member
    rw [← converted.nodes] at later
    exact ⟨rest, (lpRows_eq shaped).2 before, (lpRows_eq shaped').2 later⟩
  refine ⟨own, listed, above, fun other live apart => ?_, fun other rests => ?_⟩
  · obtain ⟨here, foundHere⟩ := SlotTable.contains_iff.1 live
    obtain ⟨path, walked, climbs⟩ := ascend_live shaped (·.payload.isSubroot) foundHere
    obtain ⟨rows, before, later⟩ := (replays.replace found lp.loadedRows children climbs).2
      fun member => apart ⟨path, walked, member⟩
    rw [← converted.nodes] at later
    rw [(lpRows_eq shaped).2 before, (lpRows_eq shaped').2 later]
  · obtain ⟨rest, before, later⟩ := above other rests
    rw [before, later, Except.ok.injEq]
    exact List.append_left_inj rest

end Tree

variable {ι : Type} [Fintype ι] [DecidableEq ι] [Inhabited ι] {rule : Rule ι} {w : World ι}

/-- A subroot takes over the rows that are loaded, and so does what is rebuilt from it. So the
rows of a node below stay if the loaded rows are those of the fork, and only then. -/
theorem flattening_replaces (reached : Reachable rule w) (p : ι) (id : NodeId)
    (flattened : (Tree.forkToSubroot id ⟨w.trees p, w.lp⟩).result = .ok ()) :
    ∃ own, (w.trees p).Flattened id own w.lp.loadedRows
      (Tree.forkToSubroot id ⟨w.trees p, w.lp⟩).state.own := by
  obtain ⟨_, settled, shaped⟩ := reached.linked p
  exact Tree.forkToSubroot_flattens settled shaped flattened

/-- The client unloads the row of a fork while the fork is the focus. -/
def World.bared : World Unit :=
  World.initial.after (rooting ++ branching ++ [.client (.unloadRow ⟨0, 0⟩)])

theorem World.bared_reachable : Reachable (fun _ _ => True) World.bared := by
  have plays : Plays (fun _ _ => True) World.initial
      (rooting ++ branching ++ [.client (.unloadRow ⟨0, 0⟩)]) := by
    decide +kernel
  exact plays.reachable

theorem flattening_replaces_bared :
    (Tree.forkToSubroot ⟨0, 0⟩ ⟨World.bared.trees (), World.bared.lp⟩).result = .ok () ∧
      ∃ own, (World.bared.trees ()).Flattened ⟨0, 0⟩ own World.bared.lp.loadedRows
        (Tree.forkToSubroot ⟨0, 0⟩ ⟨World.bared.trees (), World.bared.lp⟩).state.own := by
  have flattened :
      (Tree.forkToSubroot ⟨0, 0⟩ ⟨World.bared.trees (), World.bared.lp⟩).result = .ok () := by
    decide +kernel
  exact ⟨flattened, flattening_replaces World.bared_reachable () ⟨0, 0⟩ flattened⟩

/-- A leaf below loses the row that was not loaded. -/
theorem flattening_bares :
    Reachable (fun _ _ => True) World.bared ∧
      (Tree.forkToSubroot ⟨0, 0⟩ ⟨World.bared.trees (), World.bared.lp⟩).result = .ok () ∧
      (World.bared.trees ()).lpRows ⟨1, 0⟩ = .ok [⟨0, 0⟩] ∧
      (Tree.forkToSubroot ⟨0, 0⟩ ⟨World.bared.trees (), World.bared.lp⟩).state.own.lpRows
        ⟨1, 0⟩ = .ok [] :=
  ⟨World.bared_reachable, by decide +kernel, by decide +kernel, by decide +kernel⟩

end BranchCutPrice
