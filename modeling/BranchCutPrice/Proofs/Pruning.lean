import BranchCutPrice.Proofs.Felling
import BranchCutPrice.Proofs.Shedding

/-!
What a cutoff takes out of a tree: the queued leaves whose bounds reach it, and above them the
nodes whose children all go. Removals that have ancestors in common meet there, and each one sees
the child counts that the earlier ones left. What they come to together is said of the tree before
them alone, so it does not depend on their order.
-/

namespace BranchCutPrice

namespace SlotTable

variable {kind : Kind} {α M : Type} [AddCommMonoid M] {table table' : SlotTable kind α} {f : α → M}

/-- A table that keeps some objects of another one, as far as these count. -/
theorem total_eq_kept (fits : table.Fits) (fits' : table'.Fits)
    (kept : ∀ handle a', table'.get? handle = some a' →
      ∃ a, table.get? handle = some a ∧ f a' = f a) :
    total f table' = ((table.entries.filter fun entry => table'.contains entry.1).map fun entry =>
      f entry.2).sum := by
  let weigh (entry : Handle kind × α) : Handle kind × M := (entry.1, f entry.2)
  have names {entries : List (Handle kind × α)} (nodup : (entries.map Prod.fst).Nodup) :
      (entries.map weigh).Nodup := by
    apply List.Nodup.of_map Prod.fst
    rw [List.map_map]
    exact nodup
  have stay : (table'.entries.map weigh).Perm
      ((table.entries.filter fun entry => table'.contains entry.1).map weigh) := by
    refine (List.perm_ext_iff_of_nodup (names (handles_nodup fits')) (names ?_)).2 fun pair => ?_
    · exact (handles_nodup fits).sublist (List.filter_sublist.map _)
    obtain ⟨handle, m⟩ := pair
    simp only [List.mem_map, List.mem_filter, Prod.exists, weigh, Prod.mk.injEq, mem_entries fits,
      mem_entries fits', contains_iff]
    constructor
    · rintro ⟨_, a', found', rfl, rfl⟩
      obtain ⟨a, found, same⟩ := kept _ a' found'
      exact ⟨_, a, ⟨found, a', found'⟩, rfl, same.symm⟩
    · rintro ⟨_, a, ⟨found, a', found'⟩, rfl, rfl⟩
      obtain ⟨b, here, same⟩ := kept _ a' found'
      cases found.symm.trans here
      exact ⟨_, a', found', rfl, same⟩
  have sums := (stay.map Prod.snd).sum_eq
  rw [List.map_map, List.map_map] at sums
  rw [total_eq_entries]
  exact sums

/-- What a table that keeps some objects lacks. -/
theorem total_add_lost (fits : table.Fits) (fits' : table'.Fits)
    (kept : ∀ handle a', table'.get? handle = some a' →
      ∃ a, table.get? handle = some a ∧ f a' = f a) :
    total f table' +
        ((table.entries.filter fun entry => !table'.contains entry.1).map fun entry =>
          f entry.2).sum = total f table := by
  have parted := ((List.filter_append_perm (fun entry : Handle kind × α =>
    table'.contains entry.1) table.entries).map fun entry => f entry.2).sum_eq
  rw [List.map_append, List.sum_append, ← total_eq_kept fits fits' kept,
    ← total_eq_entries] at parted
  exact parted

end SlotTable

namespace LeafQueue

/-- What is not queued need not be taken out. -/
theorem erase_absent {queue : LeafQueue} {id : NodeId}
    (absent : ∀ entry ∈ queue.leaves, entry.node ≠ id) : queue.erase id = queue := by
  have all : ∀ entry ∈ queue.leaves, (entry.node != id) = true := fun entry member =>
    bne_iff_ne.2 (absent entry member)
  unfold erase Heap.retain Heap.restore
  rw [List.filter_eq_self.2 all, List.takeWhile_eq_self_iff.2 all, Nat.sub_self]
  rfl

end LeafQueue

/-- A node that may have lost children, but not the last one. -/
structure Node.Thins (node node' : Node) : Prop where
  same : node' = { node with payload := node.payload.withChildren node'.payload.children }
  fewer : node'.payload.children ≤ node.payload.children
  some : 0 < node.payload.children → 0 < node'.payload.children

namespace Node.Thins

variable {node node' node'' : Node}

theorem rfl : node.Thins node where
  same := by
    cases node with
    | mk payload => cases payload <;> exact Eq.refl _
  fewer := Nat.le_refl _
  some positive := positive

theorem trans (first : node.Thins node') (second : node'.Thins node'') : node.Thins node'' where
  same := by
    have before := first.same
    generalize node'.payload.children = count at before
    subst before
    have after := second.same
    rwa [Payload.withChildren_withChildren] at after
  fewer := second.fewer.trans first.fewer
  some positive := second.some (first.some positive)

theorem lowered (several : 1 < node.payload.children) : node.Thins node.lowered := by
  have inner : node.payload.kind ≠ .leaf := by
    intro leaf
    obtain ⟨basis, added, same⟩ := Payload.kind_leaf.1 leaf
    rw [same] at several
    exact absurd several (Nat.not_lt_zero 1)
  have fewer : node.lowered.payload.children = node.payload.children - 1 :=
    Payload.children_withChildren inner _
  refine ⟨?_, by omega, by omega⟩
  rw [fewer]
  exact Eq.refl _

theorem parent (thins : node.Thins node') : node'.parent = node.parent := by
  rw [thins.same]

theorem holdings (thins : node.Thins node') :
    node'.payload.holdings = node.payload.holdings := by
  rw [thins.same]
  exact Payload.holdings_withChildren _ _

end Node.Thins

theorem Climbs.found {nodes : SlotTable .node Node} {stop : Node → Bool} {id : NodeId}
    {way : List (NodeId × Node)} (climbs : Climbs nodes stop id way) :
    ∀ step ∈ way, nodes.get? step.1 = some step.2 := by
  induction climbs with
  | last found _ => exact List.forall_mem_singleton.2 found
  | step found _ _ _ ih => exact List.forall_mem_cons.2 ⟨found, ih⟩

namespace Tree

open BranchCutPrice.Action Relaxation

variable {tree tree' tree'' : Tree} {id : NodeId} {node : Node} {s s' : Linked Tree}
  {owed : Holdings} {way : List (NodeId × Node)}

/-! ### One removal -/

/-- A node is there first, and not afterwards. -/
def Loses (tree tree' : Tree) (id : NodeId) : Prop :=
  tree.contains id = true ∧ tree'.contains id = false

instance : DecidablePred (tree.Loses tree') :=
  fun id => inferInstanceAs (Decidable (tree.contains id = true ∧ tree'.contains id = false))

theorem loses_iff : tree.Loses tree' id ↔
    (∃ node, tree.nodes.get? id = some node) ∧ tree'.nodes.get? id = none := by
  unfold Loses contains SlotTable.contains
  rw [Option.isSome_iff_exists, Option.isSome_eq_false_iff, Option.isNone_iff_eq_none]

/-- Leaves were removed, and nodes above them went along. What is left of the others has children
left if it had any. -/
structure Thinned (tree : Tree) (freed : List NodeId) (tree' : Tree) : Prop where
  absent : ∀ id ∈ freed, tree'.nodes.get? id = none
  gone : ∀ id node, tree.nodes.get? id = some node → tree'.nodes.get? id = none →
    id ∈ freed ∨ 0 < node.payload.children
  kept : ∀ id node', tree'.nodes.get? id = some node' →
    ∃ node, tree.nodes.get? id = some node ∧ node.Thins node'
  activePath : tree'.activePath = tree.activePath.filter fun id => ¬tree.Loses tree' id
  focus : tree'.focus = tree.focus.filter fun id => ¬tree.Loses tree' id
  root : tree'.root = tree.root.filter fun id => ¬tree.Loses tree' id
  rest : tree' = { tree with
    nodes := tree'.nodes
    activePath := tree'.activePath
    focus := tree'.focus
    root := tree'.root
    stats := { tree.stats with freed := tree'.stats.freed } }

namespace Thinned

variable {freed freed' : List NodeId}

theorem rfl : Thinned tree [] tree := by
  have none : ∀ id, ¬tree.Loses tree id := fun id loses =>
    Bool.false_ne_true (loses.2.symm.trans loses.1)
  refine ⟨nofun, fun id node found gone => ?_, fun id node found => ⟨node, found, .rfl⟩, ?_, ?_,
    ?_, Eq.refl _⟩
  · cases found.symm.trans gone
  · simp [none]
  · cases tree.focus <;> simp [Option.filter, none]
  · cases tree.root <;> simp [Option.filter, none]

theorem kept_none (thinned : Thinned tree freed tree') (absent : tree.nodes.get? id = none) :
    tree'.nodes.get? id = none := by
  cases found : tree'.nodes.get? id with
  | none => exact Eq.refl _
  | some node =>
    obtain ⟨_, before, _⟩ := thinned.kept id node found
    cases absent.symm.trans before

theorem loses_trans (first : Thinned tree freed tree') (second : Thinned tree' freed' tree'') :
    tree.Loses tree'' id ↔ tree.Loses tree' id ∨ tree'.Loses tree'' id := by
  simp only [loses_iff]
  constructor
  · intro ⟨before, after⟩
    cases middle : tree'.nodes.get? id with
    | none => exact .inl ⟨before, Eq.refl _⟩
    | some node => exact .inr ⟨⟨node, Eq.refl _⟩, after⟩
  · rintro (⟨before, middle⟩ | ⟨⟨node, middle⟩, after⟩)
    · exact ⟨before, second.kept_none middle⟩
    · obtain ⟨node, before, _⟩ := first.kept id node middle
      exact ⟨⟨node, before⟩, after⟩

theorem trans (first : Thinned tree freed tree') (second : Thinned tree' freed' tree'') :
    Thinned tree (freed ++ freed') tree'' := by
  have keeps : (fun id : NodeId => decide (¬tree.Loses tree'' id)) =
      fun id => decide (¬tree'.Loses tree'' id) && decide (¬tree.Loses tree' id) := by
    funext id
    rw [Bool.eq_iff_iff]
    simp only [decide_eq_true_eq, Bool.and_eq_true, loses_trans first second]
    tauto
  refine ⟨fun id member => ?_, fun id node found gone => ?_, fun id node'' found => ?_, ?_, ?_, ?_,
    ?_⟩
  · obtain earlier | later := List.mem_append.1 member
    · exact second.kept_none (first.absent id earlier)
    · exact second.absent id later
  · rw [List.mem_append, or_assoc]
    cases middle : tree'.nodes.get? id with
    | none => exact (first.gone id node found middle).imp_right .inr
    | some node' =>
      obtain ⟨_, before, thins⟩ := first.kept id node' middle
      cases found.symm.trans before
      exact .inr ((second.gone id node' middle gone).imp_right thins.fewer.trans_lt')
  · obtain ⟨node', middle, thins'⟩ := second.kept id node'' found
    obtain ⟨node, before, thins⟩ := first.kept id node' middle
    exact ⟨node, before, thins.trans thins'⟩
  · rw [second.activePath, first.activePath, List.filter_filter, keeps]
  · rw [second.focus, first.focus, Option.filter_filter, keeps]
    simp only [Bool.and_comm]
  · rw [second.root, first.root, Option.filter_filter, keeps]
    simp only [Bool.and_comm]
  · have before := first.rest
    rw [second.rest]
    generalize tree'.nodes = nodes, tree'.activePath = path, tree'.focus = focus,
      tree'.root = root, tree'.stats.freed = count at before
    subst before
    exact Eq.refl _

end Thinned

theorem Felled.loses_iff {gone : List (NodeId × Node)} {written : Option (NodeId × Node)}
    (felled : Felled tree gone written tree')
    (found : ∀ step ∈ gone, tree.nodes.get? step.1 = some step.2) :
    tree.Loses tree' id ↔ id ∈ gone.map Prod.fst := by
  rw [Tree.loses_iff]
  constructor
  · intro ⟨⟨node, before⟩, after⟩
    by_contra apart
    by_cases here : written.map Prod.fst = some id
    · obtain ⟨⟨_, node'⟩, same, rfl⟩ := Option.map_eq_some_iff.1 here
      cases after.symm.trans (felled.present _ node' same)
    · cases (felled.others id apart here).symm.trans after |>.symm.trans before
  · intro member
    obtain ⟨step, there, rfl⟩ := List.mem_map.1 member
    exact ⟨⟨step.2, found step there⟩, felled.absent _ member⟩

theorem Removed.thinned (removed : Removed s way s') (shaped : s.desk.Shaped)
    (climbs : Climbs s.own.nodes (fun _ => false) id way)
    (queue : s'.own.queue = s.own.queue) : Thinned s.own [id] s'.own := by
  have felled := removed.tree
  have part : doomed way ⊆ way := by
    cases way with
    | nil => exact List.Subset.refl _
    | cons first above =>
      exact List.cons_subset_cons _ (List.takeWhile_sublist goesAlong).subset
  have inner : ∀ step ∈ doomed way, step.1 = id ∨ 0 < step.2.payload.children := by
    obtain ⟨node, above, rfl, _⟩ := climbs.first
    intro step member
    obtain rfl | later := List.mem_cons.1 member
    · exact .inl rfl
    · exact .inr (parents_of_climbs shaped climbs step
        ((List.takeWhile_sublist goesAlong).subset later))
  have loses (other : NodeId) :
      s.own.Loses s'.own other ↔ other ∈ (doomed way).map Prod.fst :=
    felled.loses_iff fun step member => climbs.found step (part member)
  refine ⟨?_, fun other node found gone => ?_, fun other node' found => ?_, ?_, ?_, ?_, ?_⟩
  · rintro _ member
    obtain rfl := List.mem_singleton.1 member
    obtain ⟨node, above, rfl, _⟩ := climbs.first
    exact felled.absent _ List.mem_cons_self
  · have member := (loses other).1 (Tree.loses_iff.2 ⟨⟨node, found⟩, gone⟩)
    obtain ⟨step, there, rfl⟩ := List.mem_map.1 member
    cases found.symm.trans (climbs.found step (part there))
    exact (inner step there).imp_left List.mem_singleton.2
  · have apart : other ∉ (doomed way).map Prod.fst := fun member => by
      cases (felled.absent other member).symm.trans found
    by_cases here : (heir way).map Prod.fst = some other
    · unfold heir at here
      rw [Option.map_map] at here
      obtain ⟨step, stays, rfl⟩ := Option.map_eq_some_iff.1 here
      have member : step ∈ way := List.mem_of_mem_tail
        ((List.dropWhile_sublist goesAlong).subset (List.mem_of_head? stays))
      have present := felled.present step.1 step.2.lowered (by rw [heir, stays, Option.map_some])
      cases present.symm.trans found
      exact ⟨step.2, climbs.found step member, .lowered (removed.several step stays)⟩
    · exact ⟨node', (felled.others other apart here).symm.trans found, .rfl⟩
  · rw [felled.activePath]
    exact List.filter_congr fun other _ => by simp only [loses]
  · rw [felled.focus]
    simp only [loses]
  · rw [felled.root]
    simp only [loses]
  · rw [felled.rest, queue]

/-- The removal of a leaf that is not queued leaves the queue alone. Nothing above a leaf is
queued. -/
theorem freeUpwards_queue (steps : Nat) (tidy : s.own.Tidy)
    (absent : ∀ entry ∈ s.own.queue.leaves, entry.node ≠ id) :
    (freeUpwards steps id).Yields s fun _ s' => s'.own.queue = s.own.queue := by
  induction steps generalizing s id with
  | zero => trivial
  | succ steps ih =>
    have detached : (detach id).Yields s.own fun _ tree' => tree'.queue = s.own.queue := by
      unfold Yields detach take
      rw [ensures_bind, ensures_bind]
      apply yields_read.2
      intro node _
      exact LeafQueue.erase_absent absent
    unfold Yields freeUpwards
    rw [ensures_bind, ensures_onOwn]
    apply ((detach_sheds s.own id).and detached).yields
    intro node tree' done
    obtain ⟨sheds, queue⟩ := done
    rw [ensures_bind, ensures_onLp]
    apply yields_of_all
    intro _ lp'
    rw [ensures_bind, ensures_emit]
    cases node.parent with
    | none => exact queue
    | some above =>
      have counted : (releaseChild above).Yields tree' fun _ tree'' =>
          tree''.queue = s.own.queue := by
        unfold Yields releaseChild
        rw [ensures_bind]
        apply yields_read.2
        intro upper _
        cases released : upper.payload.releaseChild above.index with
        | error e => trivial
        | ok payload => exact queue
      dsimp only
      rw [ensures_bind, ensures_onOwn]
      apply ((releaseChild_sheds tree' above).and counted).yields
      intro remaining tree'' done
      obtain ⟨⟨lowered, inner⟩, queue⟩ := done
      split
      · have tidy' : tree''.Tidy :=
          (sheds.trans lowered).tidy (List.Subset.refl _) tidy
        apply (ih (s := ⟨tree'', lp'⟩) tidy' fun entry => tidy'.absent inner).yields
        intro _ s' freed
        exact freed.trans queue
      · exact queue

theorem freeNode_queue (tidy : s.own.Tidy)
    (absent : ∀ entry ∈ s.own.queue.leaves, entry.node ≠ id) :
    (freeNode id).Yields s fun _ s' => s'.own.queue = s.own.queue := by
  unfold Yields freeNode
  rw [ensures_bind, ensures_get]
  dsimp only
  rw [ensures_bind]
  apply yields_read.2
  intro node _
  split
  · trivial
  · exact freeUpwards_queue _ tidy absent

/-! ### Several removals -/

/-- Part of the way through leaves that are removed. -/
structure Pruning (s : Linked Tree) (owed : Holdings) (freed : List NodeId) (s' : Linked Tree) :
    Prop where
  settled : Settled s' owed
  shaped : s'.desk.Shaped
  tidy : s'.own.Tidy
  thinned : Thinned s.own freed s'.own
  still : Still s.lp s'.lp

theorem Pruning.queue {freed : List NodeId} (pruning : Pruning s owed freed s') :
    s'.own.queue = s.own.queue := by
  rw [pruning.thinned.rest]

/-- A leaf that is neither queued nor removed yet. -/
structure Pending (s : Linked Tree) (id : NodeId) : Prop where
  found : ∃ node, s.own.nodes.get? id = some node ∧ node.payload.children = 0
  absent : ∀ entry ∈ s.own.queue.leaves, entry.node ≠ id

theorem Pruning.step {freed : List NodeId} (pruning : Pruning s owed freed s')
    (pending : Pending s id) (apart : id ∉ freed) :
    (freeNode id).Completes s' fun _ s'' => Pruning s owed (freed ++ [id]) s'' := by
  have queue := pruning.queue
  obtain ⟨settled, shaped, tidy, thinned, still⟩ := pruning
  obtain ⟨node, found, childless⟩ := pending.found
  -- a leaf does not go along with others, so it is still there
  obtain ⟨node', found', childless'⟩ : ∃ node', s'.own.nodes.get? id = some node' ∧
      node'.payload.children = 0 := by
    cases found' : s'.own.nodes.get? id with
    | none =>
      obtain earlier | parent := thinned.gone id node found found'
      · exact absurd earlier apart
      · omega
    | some node' =>
      obtain ⟨_, here, thins⟩ := thinned.kept id node' found'
      cases found.symm.trans here
      exact ⟨node', rfl, Nat.le_zero.1 (childless ▸ thins.fewer)⟩
  obtain ⟨above, ascends, removes⟩ := freeNode_removes settled shaped found' childless'
  have climbs := climbs_of_ascend ascends
  have unqueued : ∀ entry ∈ s'.own.queue.leaves, entry.node ≠ id := by
    rw [queue]
    exact pending.absent
  have whole := ((removes.also (freeNode_ensures settled shaped id)).also
    (freeNode_sheds tidy id)).also (freeNode_queue tidy unqueued)
  apply whole.mono
  intro _ s'' done
  obtain ⟨⟨⟨removed, settled', moves⟩, sheds⟩, untouched⟩ := done
  exact ⟨settled', moves.shaped_of_shrinking (by simp) shaped,
    sheds.tidy (List.Subset.refl _) tidy,
    thinned.trans (removed.thinned shaped climbs untouched), still.trans removed.lp.still⟩

/-- Leaves can be removed one after the other, in any order. -/
theorem freeNodes_prune (settled : Settled s owed) (shaped : s.desk.Shaped) (tidy : s.own.Tidy)
    {leaves : List NodeId} (distinct : leaves.Nodup) (pending : ∀ id ∈ leaves, Pending s id) :
    (leaves.forM freeNode).Completes s fun _ s' => Pruning s owed leaves s' := by
  let before (rest : List NodeId) (s' : Linked Tree) : Prop :=
    ∃ freed, leaves = freed ++ rest ∧ Pruning s owed freed s'
  have start : before leaves s := ⟨[], rfl, settled, shaped, tidy, .rfl, .rfl⟩
  have step (id : NodeId) (rest : List NodeId) (s' : Linked Tree)
      (reached : before (id :: rest) s') : (freeNode id).Completes s' fun _ => before rest := by
    obtain ⟨freed, split, pruning⟩ := reached
    have member : id ∈ leaves := by
      rw [split]
      simp
    have apart : id ∉ freed := by
      intro earlier
      rw [split] at distinct
      exact (List.nodup_append.1 distinct).2.2 id earlier id List.mem_cons_self rfl
    apply (pruning.step (pending id member) apart).mono
    intro _ s'' done
    exact ⟨freed ++ [id], by simp [split], done⟩
  apply Completes.mono (ensures_forM before step leaves start)
  intro _ s' done
  obtain ⟨freed, all, pruning⟩ := done
  rw [List.append_nil] at all
  exact all ▸ pruning

/-! ### What they come to -/

/-- The nodes that are lost on the way to another tree. -/
def lost (tree tree' : Tree) : List (NodeId × Node) :=
  tree.nodes.entries.filter fun step => !tree'.contains step.1

/-- The children of a node that are kept on the way to another tree. -/
def keptChildren (tree tree' : Tree) (id : NodeId) : Nat :=
  tree.nodes.entries.countP fun step => step.2.parent = some id && tree'.contains step.1

/-- Leaves are gone, and with them the nodes that had children all of which are gone. The other
nodes count the children that they have left. -/
structure Pruned (tree : Tree) (leaves : List NodeId) (tree' : Tree) : Prop where
  gone : ∀ id node, tree.nodes.get? id = some node →
    (tree'.nodes.get? id = none ↔ id ∈ leaves ∨ 0 < node.payload.children ∧
      ∀ child lower, tree.nodes.get? child = some lower → lower.parent = some id →
        tree'.nodes.get? child = none)
  kept : ∀ id node', tree'.nodes.get? id = some node' → ∃ node, tree.nodes.get? id = some node ∧
    node' = { node with payload := node.payload.withChildren (tree.keptChildren tree' id) }
  queue : tree'.queue.leaves.Perm (tree.queue.leaves.filter (·.node ∉ leaves))
  activePath : tree'.activePath = tree.activePath.filter fun id => ¬tree.Loses tree' id
  focus : tree'.focus = tree.focus.filter fun id => ¬tree.Loses tree' id
  root : tree'.root = tree.root.filter fun id => ¬tree.Loses tree' id
  rest : tree' = { tree with
    nodes := tree'.nodes
    queue := { tree.queue with leaves := tree'.queue.leaves }
    activePath := tree'.activePath
    focus := tree'.focus
    root := tree'.root
    stats := { tree.stats with freed := tree.stats.freed + (tree.lost tree').length } }

variable {leaves leaves' : List NodeId}

/-- The parts of a pruned tree that were kept weigh what they weighed. -/
private theorem Thinned.weighs {M : Type} [AddCommMonoid M] {f : Node → M}
    (thinned : Thinned tree leaves tree') (same : ∀ node node' : Node, node.Thins node' →
      f node' = f node) (id : NodeId) (node' : Node) (found : tree'.nodes.get? id = some node') :
    ∃ node, tree.nodes.get? id = some node ∧ f node' = f node := by
  obtain ⟨node, before, thins⟩ := thinned.kept id node' found
  exact ⟨node, before, same node node' thins⟩

theorem Pruning.children (pruning : Pruning s owed leaves s') (shaped : s.desk.Shaped)
    {node' : Node} (found : s'.own.nodes.get? id = some node') :
    node'.payload.children = s.own.keptChildren s'.own id := by
  have counted : childCount s'.own.nodes id =
      ((s.own.nodes.entries.filter fun step => s'.own.contains step.1).map fun step =>
        if step.2.parent = some id then 1 else 0).sum :=
    SlotTable.total_eq_kept shaped.fits pruning.shaped.fits
      (pruning.thinned.weighs fun _ _ thins => by rw [thins.parent])
  rw [pruning.shaped.children id node' found]
  refine counted.trans ?_
  simp [keptChildren, List.sum_map_ite, List.countP_eq_length_filter]

theorem Pruning.held (pruning : Pruning s owed leaves s') (shaped : s.desk.Shaped) :
    nodeHoldings s'.own.nodes +
        ((s.own.lost s'.own).map fun step => step.2.payload.holdings).sum =
      nodeHoldings s.own.nodes :=
  SlotTable.total_add_lost shaped.fits pruning.shaped.fits
    (pruning.thinned.weighs fun _ _ thins => thins.holdings)

/-- What was removed is described by the tree before and by the leaves alone. -/
theorem Pruning.pruned {queue : LeafQueue}
    (pruning : Pruning ⟨{ s.own with queue := queue }, s.lp⟩ owed leaves s')
    (shaped : s.desk.Shaped)
    (drained : queue = { s.own.queue with leaves := queue.leaves })
    (unqueued : queue.leaves.Perm (s.own.queue.leaves.filter (·.node ∉ leaves))) :
    Pruned s.own leaves s'.own := by
  have thinned := pruning.thinned
  have same : s'.own.queue = queue := pruning.queue
  have counts : s'.own.stats.freed = s.own.stats.freed + (s.own.lost s'.own).length := by
    have kept : s'.own.nodes.live + (s.own.lost s'.own).length = s.own.nodes.live := by
      have lost := SlotTable.total_add_lost (f := fun _ : Node => 1) shaped.fits
        pruning.shaped.fits (thinned.weighs fun _ _ _ => rfl)
      rw [List.map_const', List.sum_replicate_nat, mul_one, ← pruning.shaped.sound.live_eq,
        ← shaped.sound.live_eq] at lost
      exact lost
    have created : s'.own.stats.created = s.own.stats.created := by
      rw [thinned.rest]
    have before : s.own.stats.created = s.own.stats.freed + s.own.nodes.live := shaped.counted
    have after : s'.own.stats.created = s'.own.stats.freed + s'.own.nodes.live :=
      pruning.shaped.counted
    omega
  refine ⟨fun id node found => ?_, fun id node' found => ?_, same ▸ unqueued, thinned.activePath,
    thinned.focus, thinned.root, ?_⟩
  · constructor
    · intro gone
      refine (thinned.gone id node found gone).imp_right fun parent =>
        ⟨parent, fun child lower below above => ?_⟩
      -- what is left has its parents
      cases stays : s'.own.nodes.get? child with
      | none => rfl
      | some lower' =>
        obtain ⟨_, here, thins⟩ := thinned.kept child lower' stays
        cases below.symm.trans here
        obtain ⟨upper, there, _⟩ :=
          pruning.shaped.parent child lower' id stays (thins.parent.trans above)
        cases gone.symm.trans there
    · rintro (freed | ⟨parent, childless⟩)
      · exact thinned.absent id freed
      · cases stays : s'.own.nodes.get? id with
        | none => rfl
        | some node' =>
          obtain ⟨_, here, thins⟩ := thinned.kept id node' stays
          cases found.symm.trans here
          -- it counts a child, so one is left
          have counted : 0 < s.own.keptChildren s'.own id := by
            have children := pruning.children shaped stays
            have some := thins.some parent
            rw [children] at some
            exact some
          obtain ⟨step, listed, child⟩ := List.countP_pos_iff.1 counted
          rw [Bool.and_eq_true, decide_eq_true_eq] at child
          have below : s.own.nodes.get? step.1 = some step.2 :=
            (SlotTable.mem_entries shaped.fits).1 listed
          obtain ⟨lower, there⟩ := SlotTable.contains_iff.1 child.2
          cases (childless step.1 step.2 below child.1).symm.trans there
  · obtain ⟨node, before, thins⟩ := thinned.kept id node' found
    refine ⟨node, before, ?_⟩
    have children := pruning.children shaped found
    have same := thins.same
    rw [children] at same
    exact same
  · have rest := thinned.rest
    rw [← counts, same, ← drained]
    exact rest

theorem Pruned.congr (pruned : Pruned tree leaves tree')
    (same : ∀ id, id ∈ leaves ↔ id ∈ leaves') : Pruned tree leaves' tree' :=
  { pruned with
    gone := fun id node found => by
      rw [← same]
      exact pruned.gone id node found
    queue := by
      simp only [← same]
      exact pruned.queue }

/-! ### Any order -/

/-- Nothing but the layout of the nodes tells two states apart. -/
structure Agrees (s s' : Linked Tree) : Prop where
  nodes : ∀ id, s'.own.nodes.get? id = s.own.nodes.get? id
  tree : s'.own = { s.own with nodes := s'.own.nodes }
  rows : ∀ row, s'.lp.rows.users row = s.lp.rows.users row
  columns : ∀ column, s'.lp.columns.users column = s.lp.columns.users column
  bases : ∀ basis, s'.lp.bases.users basis = s.lp.bases.users basis

/-- Which nodes are gone follows from the leaves, from the deepest nodes upwards. -/
theorem Pruned.gone_iff {loaded : List RowId} (shaped : (tree.desk loaded).Shaped)
    (first : Pruned tree leaves tree') (second : Pruned tree leaves' tree'')
    (same : ∀ id, id ∈ leaves ↔ id ∈ leaves') (id : NodeId) :
    tree'.nodes.get? id = none ↔ tree''.nodes.get? id = none := by
  have downwards : ∀ height id node, tree.nodes.get? id = some node →
      tree.nodes.slots.size ≤ node.depth + height →
        (tree'.nodes.get? id = none ↔ tree''.nodes.get? id = none) := by
    intro height
    induction height with
    | zero =>
      intro id node found deep
      exact absurd (shaped.depth_lt found) (Nat.not_lt.2 deep)
    | succ height ih =>
      intro id node found deep
      rw [first.gone id node found, second.gone id node found, same]
      have children : ∀ child lower, tree.nodes.get? child = some lower →
          lower.parent = some id →
            (tree'.nodes.get? child = none ↔ tree''.nodes.get? child = none) := by
        intro child lower below above
        obtain ⟨upper, here, _, next⟩ := shaped.parent child lower id below above
        cases found.symm.trans here
        exact ih child lower below (by omega)
      refine or_congr_right (and_congr_right fun _ => forall₄_congr ?_)
      exact children
  cases found : tree.nodes.get? id with
  | some node => exact downwards tree.nodes.slots.size id node found (Nat.le_add_left _ _)
  | none =>
    have absent {leaves : List NodeId} {after : Tree} (pruned : Pruned tree leaves after) :
        after.nodes.get? id = none := by
      cases stays : after.nodes.get? id with
      | none => rfl
      | some node' =>
        obtain ⟨_, before, _⟩ := pruned.kept id node' stays
        cases found.symm.trans before
    exact iff_of_true (absent first) (absent second)

theorem contains_eq {after after' : Tree}
    (same : after.nodes.get? id = none ↔ after'.nodes.get? id = none) :
    after.contains id = after'.contains id := by
  unfold contains SlotTable.contains
  cases here : after.nodes.get? id <;> cases there : after'.nodes.get? id <;>
    simp_all

theorem Pruned.agrees {loaded : List RowId} (shaped : (tree.desk loaded).Shaped)
    (first : Pruned tree leaves tree') (second : Pruned tree leaves' tree'')
    (same : ∀ id, id ∈ leaves ↔ id ∈ leaves') (queue : tree''.queue = tree'.queue) :
    tree.lost tree'' = tree.lost tree' ∧ (∀ id, tree''.nodes.get? id = tree'.nodes.get? id) ∧
      tree'' = { tree' with nodes := tree''.nodes } := by
  have gone := first.gone_iff shaped second same
  have alike : ∀ id, tree''.contains id = tree'.contains id := fun id =>
    (contains_eq (gone id)).symm
  have lost : tree.lost tree'' = tree.lost tree' := by
    unfold Tree.lost
    simp only [alike]
  have loses : tree.Loses tree'' = tree.Loses tree' := by
    funext id
    unfold Loses
    rw [alike]
  refine ⟨lost, fun id => ?_, ?_⟩
  · cases stays : tree'.nodes.get? id with
    | none => exact (gone id).1 stays
    | some node' =>
      cases stays' : tree''.nodes.get? id with
      | none => cases stays.symm.trans ((gone id).2 stays')
      | some node'' =>
        obtain ⟨node, found, here⟩ := first.kept id node' stays
        obtain ⟨_, found', there⟩ := second.kept id node'' stays'
        cases found.symm.trans found'
        have counts : tree.keptChildren tree'' id = tree.keptChildren tree' id := by
          unfold keptChildren
          simp only [alike]
        rw [here, there, counts]
  · have path : tree''.activePath = tree'.activePath := by
      rw [first.activePath, second.activePath]
      simp only [loses]
    have focus : tree''.focus = tree'.focus := by
      rw [first.focus, second.focus]
      simp only [loses]
    have root : tree''.root = tree'.root := by
      rw [first.root, second.root]
      simp only [loses]
    have before := first.rest
    have after := second.rest
    rw [lost, queue, path, focus, root] at after
    rw [after]
    exact congrArg (fun tree => { tree with nodes := tree''.nodes }) before.symm

/-! ### Cutoffs -/

/-- The queued leaves whose bounds reach a cutoff. -/
def prunable (tree : Tree) (cutoff : Float) : List NodeId :=
  (tree.nodes.entries.filter fun step =>
    tree.queue.contains step.1 && step.2.canPrune cutoff).map Prod.fst

/-- The leaves that a cutoff takes out of the queue. -/
theorem Filed.drain_perm_prunable (filed : tree.Filed) (fits : tree.nodes.Fits) (cutoff : Float) :
    (tree.queue.drain cutoff).1.Perm (tree.prunable cutoff) := by
  have distinct : (tree.queue.drain cutoff).1.Nodup :=
    filed.distinct.sublist (List.filter_sublist.map _)
  have distinct' : (tree.prunable cutoff).Nodup :=
    (SlotTable.handles_nodup fits).sublist (List.filter_sublist.map _)
  refine (List.perm_ext_iff_of_nodup distinct distinct').2 fun id => ?_
  rw [mem_drain]
  unfold prunable
  simp only [List.mem_map, List.mem_filter, Prod.exists, exists_and_right, exists_eq_right,
    SlotTable.mem_entries fits, Bool.and_eq_true, LeafQueue.contains_iff]
  constructor
  · rintro ⟨entry, member, reaches, rfl⟩
    obtain ⟨node, found, _, bound, _⟩ := filed.entries entry member
    refine ⟨node, found, ⟨entry, member, rfl⟩, ?_⟩
    unfold Node.canPrune
    rw [← bound]
    exact reaches
  · rintro ⟨node, found, ⟨entry, member, rfl⟩, reaches⟩
    obtain ⟨_, here, _, bound, _⟩ := filed.entries entry member
    cases found.symm.trans here
    refine ⟨entry, member, ?_, rfl⟩
    unfold QueuedLeaf.reaches
    rw [bound]
    exact reaches

/-- The tree with the leaves taken out of the queue that a cutoff takes out. -/
def drained (s : Linked Tree) (cutoff : Float) : Linked Tree :=
  ⟨{ s.own with queue := (s.own.queue.drain cutoff).2 }, s.lp⟩

/-- What a cutoff does to a tree. The leaves taken out of the queue may be removed in any order. -/
structure Prunes (s : Linked Tree) (cutoff : Float) (outcome : Outcome (Linked Tree) Nat) :
    Prop where
  result : outcome.result = .ok (s.own.prunable cutoff).length
  tree : s.own.Pruned (s.own.prunable cutoff) outcome.state.own
  lp : s.lp.Lightened ((s.own.lost outcome.state.own).flatMap (·.2.payload.rows))
    ((s.own.lost outcome.state.own).filterMap (·.2.payload.basis?)) outcome.state.lp
  order : ∀ order : List NodeId, order.Perm (s.own.queue.drain cutoff).1 →
    (order.forM freeNode (drained s cutoff)).result = .ok () ∧
      Agrees outcome.state (order.forM freeNode (drained s cutoff)).state

/-- The leaves that a cutoff takes out of the queue can be removed in any order. -/
theorem drained_prune (settled : Settled s owed) (shaped : s.desk.Shaped) (tidy : s.own.Tidy)
    {cutoff : Float} {order : List NodeId} (same : order.Perm (s.own.queue.drain cutoff).1) :
    (order.forM freeNode).Completes (drained s cutoff) fun _ s' =>
      Pruning (drained s cutoff) owed order s' := by
  have drains := drain_sheds tidy cutoff
  refine freeNodes_prune (s := drained s cutoff) settled shaped
    (drains.tidy (List.nil_subset _) tidy) (same.nodup_iff.2 (nodup_drain tidy cutoff)) ?_
  intro id listed
  have member := same.mem_iff.1 listed
  constructor
  · obtain ⟨entry, there, _, rfl⟩ := (mem_drain _ _ _).1 member
    obtain ⟨node, found, leaf⟩ := Option.bind_eq_some_iff.1 (tidy.queued entry there)
    refine ⟨node, found, ?_⟩
    have kind : node.payload.kind = .leaf := by
      by_contra inner
      cases leaf.symm.trans (Node.leaf?_inner inner)
    obtain ⟨basis, added, payload⟩ := Payload.kind_leaf.1 kind
    rw [payload]
    rfl
  · intro entry stays here
    exact (drains.mem_queue.1 stays).2 (here ▸ member)

theorem pruneLeaves_completes (settled : Settled s owed) (shaped : s.desk.Shaped)
    (tidy : s.own.Tidy) (cutoff : Float) :
    (pruneLeaves cutoff).Completes s fun count s' => count = (s.own.queue.drain cutoff).1.length ∧
      Pruning (drained s cutoff) owed (s.own.queue.drain cutoff).1 s' := by
  unfold pruneLeaves
  rw [Completes, ensures_bind, ensures_onOwn, ensures_modifyGet, ensures_bind]
  apply (drained_prune settled shaped tidy (.refl _)).mono
  intro _ s' pruning
  rw [ensures_bind, ensures_emitIf]
  exact ⟨rfl, pruning⟩

theorem pruneLeaves_prunes (settled : Settled s owed) (shaped : s.desk.Shaped)
    (orderly : s.own.Orderly) (cutoff : Float) : Prunes s cutoff (pruneLeaves cutoff s) := by
  have tidy := orderly.tidy
  have listed : (s.own.queue.drain cutoff).1.Perm (s.own.prunable cutoff) :=
    orderly.filed.drain_perm_prunable shaped.fits cutoff
  have pruned {order : List NodeId} (same : order.Perm (s.own.queue.drain cutoff).1)
      {s' : Linked Tree} (pruning : Pruning (drained s cutoff) owed order s') :
      s.own.Pruned order s'.own := by
    refine pruning.pruned shaped rfl
      ((drain_sheds tidy cutoff).queue.trans (.of_eq (List.filter_congr ?_)))
    intro entry _
    simp only [same.mem_iff]
  have lighter {order : List NodeId} {s' : Linked Tree}
      (pruning : Pruning (drained s cutoff) owed order s') :
      s.lp.Lightened ((s.own.lost s'.own).flatMap (·.2.payload.rows))
        ((s.own.lost s'.own).filterMap (·.2.payload.basis?)) s'.lp :=
    lightened_of_held settled pruning.settled pruning.still (pruning.held shaped)
  obtain ⟨_, ended, rfl, pruning⟩ := ensures_never (pruneLeaves_completes settled shaped tidy cutoff)
  have tree := pruned (.refl _) pruning
  have lp := lighter pruning
  refine ⟨ended.trans (congrArg Except.ok listed.length_eq), tree.congr fun id => listed.mem_iff,
    lp, fun order same => ?_⟩
  obtain ⟨_, ended', pruning'⟩ := ensures_never (drained_prune settled shaped tidy same)
  obtain ⟨lost, nodes, rest⟩ := tree.agrees shaped (pruned same pruning')
    (fun id => same.mem_iff.symm) (pruning'.queue.trans pruning.queue.symm)
  have lp' := lighter pruning'
  rw [lost] at lp'
  refine ⟨ended', nodes, rest, fun row => ?_, fun column => ?_, fun basis => ?_⟩
  · exact Nat.add_right_cancel ((lp'.rows row).trans (lp.rows row).symm)
  · exact (lp'.columns column).trans (lp.columns column).symm
  · exact Nat.add_right_cancel ((lp'.bases basis).trans (lp.bases basis).symm)

end Tree

variable {ι : Type} [Fintype ι] [DecidableEq ι] [Inhabited ι] {rule : Rule ι} {w : World ι}

/-- A cutoff takes out of a tree the queued leaves whose bounds reach it and the nodes whose
children all go, and nothing else. What is left does not depend on the order. -/
theorem pruneLeaves_exact (reached : Reachable rule w) (p : ι) (cutoff : Float) :
    Tree.Prunes ⟨w.trees p, w.lp⟩ cutoff (Tree.pruneLeaves cutoff ⟨w.trees p, w.lp⟩) := by
  obtain ⟨_, settled, shaped⟩ := reached.linked p
  exact Tree.pruneLeaves_prunes settled shaped (reached.orderly p).1 cutoff

/-- A root with three children, the first of which has two children. Three of the four leaves
have a bound. -/
def laying : List (Call Unit) :=
  rooting ++ [.tree () (.promote ⟨0, 0⟩), .tree () (.createLeaf ⟨0, 0⟩ ⟨0, 0⟩),
    .tree () (.createLeaf ⟨0, 0⟩ ⟨0, 0⟩), .tree () (.createLeaf ⟨0, 0⟩ ⟨0, 0⟩),
    .tree () (.leafToFork ⟨1, 0⟩), .tree () (.createLeaf ⟨1, 0⟩ ⟨0, 0⟩),
    .tree () (.createLeaf ⟨1, 0⟩ ⟨0, 0⟩), .tree () (.raiseBound ⟨2, 0⟩ 10),
    .tree () (.raiseBound ⟨4, 0⟩ 12), .tree () (.raiseBound ⟨5, 0⟩ 11),
    .tree () (.insertLeaf ⟨2, 0⟩), .tree () (.insertLeaf ⟨3, 0⟩), .tree () (.insertLeaf ⟨4, 0⟩),
    .tree () (.insertLeaf ⟨5, 0⟩)]

def World.laden : World Unit :=
  World.initial.after laying

theorem pruneLeaves_exact_laden : Reachable (fun _ _ => True) World.laden ∧
    (World.laden.trees ()).prunable 10 = [⟨2, 0⟩, ⟨4, 0⟩, ⟨5, 0⟩] ∧
    ((World.laden.trees ()).lost (Tree.pruneLeaves 10
      ⟨World.laden.trees (), World.laden.lp⟩).state.own).map Prod.fst =
        [⟨1, 0⟩, ⟨2, 0⟩, ⟨4, 0⟩, ⟨5, 0⟩] ∧
    Tree.Prunes ⟨World.laden.trees (), World.laden.lp⟩ 10
      (Tree.pruneLeaves 10 ⟨World.laden.trees (), World.laden.lp⟩) := by
  have plays : Plays (fun _ _ => True) World.initial laying := by
    decide +kernel
  have reached : Reachable (fun _ _ => True) World.laden := plays.reachable
  exact ⟨reached, by decide +kernel, by decide +kernel, pruneLeaves_exact reached () 10⟩

end BranchCutPrice
