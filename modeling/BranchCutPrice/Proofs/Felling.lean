import BranchCutPrice.Proofs.Orderly
import BranchCutPrice.Proofs.Ways

/-!
What a removal takes along. A node without children goes, and with it the ancestors that have no
other child; the next ancestor counts a child less. Each of them releases what it held and is
forgotten, and nothing else changes.
-/

namespace BranchCutPrice

/-- A node that counts a child less. -/
def Node.lowered (node : Node) : Node :=
  { node with payload := node.payload.withChildren (node.payload.children - 1) }

/-- The users that go with captures that are released, the objects they were of, and what else
becomes of a relaxation. -/
structure Relaxation.Lightened (lp : Relaxation) (rows : List RowId) (bases : List BasisId)
    (lp' : Relaxation) : Prop where
  rows : ∀ row, lp'.rows.users row + rows.count row = lp.rows.users row
  bases : ∀ basis, lp'.bases.users basis + bases.count basis = lp.bases.users basis
  columns : ∀ column, lp'.columns.users column = lp.columns.users column
  still : Still lp lp'

theorem Climbs.first {nodes : SlotTable .node Node} {stop : Node → Bool}
    {id : NodeId} {way : List (NodeId × Node)} (climbs : Climbs nodes stop id way) :
    ∃ node rest, way = (id, node) :: rest ∧ nodes.get? id = some node := by
  cases climbs with
  | last found _ => exact ⟨_, _, rfl, found⟩
  | step found _ _ _ => exact ⟨_, _, rfl, found⟩

namespace Tree

open BranchCutPrice.Action Relaxation

/-- Whether a node goes with its only child. -/
def goesAlong (step : NodeId × Node) : Bool :=
  step.2.payload.children == 1

/-- What goes with the first node of a way to the root: it and the next ones that have no other
child. -/
def doomed : List (NodeId × Node) → List (NodeId × Node)
  | [] => []
  | first :: above => first :: above.takeWhile goesAlong

/-- The first node of a way to the root that stays. -/
def survivor (way : List (NodeId × Node)) : Option (NodeId × Node) :=
  (way.tail.dropWhile goesAlong).head?

/-- Some nodes are gone, at most one other was rewritten, and everything else is as it was. -/
structure Felled (tree : Tree) (gone : List (NodeId × Node)) (written : Option (NodeId × Node))
    (tree' : Tree) : Prop where
  absent : ∀ id ∈ gone.map Prod.fst, tree'.nodes.get? id = none
  present : ∀ id node, written = some (id, node) → tree'.nodes.get? id = some node
  others : ∀ id, id ∉ gone.map Prod.fst → written.map Prod.fst ≠ some id →
    tree'.nodes.get? id = tree.nodes.get? id
  queue : tree'.queue.leaves.Perm (tree.queue.leaves.filter (·.node ∉ gone.map Prod.fst))
  activePath : tree'.activePath = tree.activePath.filter (· ∉ gone.map Prod.fst)
  focus : tree'.focus = tree.focus.filter (· ∉ gone.map Prod.fst)
  root : tree'.root = tree.root.filter (· ∉ gone.map Prod.fst)
  rest : tree' = { tree with
    nodes := tree'.nodes
    queue := { tree.queue with leaves := tree'.queue.leaves }
    activePath := tree'.activePath
    focus := tree'.focus
    root := tree'.root
    stats := { tree.stats with freed := tree.stats.freed + gone.length } }
  held : nodeHoldings tree'.nodes + (gone.map fun step => step.2.payload.holdings).sum =
    nodeHoldings tree.nodes

variable {tree tree' : Tree} {gone : List (NodeId × Node)} {id : NodeId} {node : Node}

/-- A pointer to a node that goes is cleared, after others were. -/
private theorem filter_pointer (pointer : Option NodeId) (id : NodeId) (keeps : NodeId → Bool) :
    (if pointer.filter keeps = some id then none else pointer.filter keeps) =
      pointer.filter fun other => other != id && keeps other := by
  cases pointer with
  | none => rfl
  | some other =>
    by_cases same : other = id
    · by_cases kept : keeps id = true <;> simp [same, kept, Option.filter]
    · by_cases kept : keeps other = true <;> simp [same, kept, Option.filter]

/-- The list of nodes that are gone grows at its end. -/
private theorem notMem_snoc {gone : List (NodeId × Node)} {id : NodeId} {node : Node} :
    (fun other : NodeId => decide (other ∉ (gone ++ [(id, node)]).map Prod.fst)) =
      fun other => (other != id) && decide (other ∉ gone.map Prod.fst) := by
  funext other
  rw [Bool.eq_iff_iff]
  simp only [List.map_append, List.map_cons, List.map_nil, List.mem_append, List.mem_singleton,
    decide_eq_true_eq, Bool.and_eq_true, bne_iff_ne]
  tauto

namespace Felled

theorem start (found : tree.nodes.get? id = some node) : Felled tree [] (some (id, node)) tree where
  absent _ member := absurd member List.not_mem_nil
  present _ _ same := by
    cases same
    exact found
  others _ _ _ := rfl
  queue := by simp
  activePath := by simp
  focus := by cases tree.focus <;> simp [Option.filter]
  root := by cases tree.root <;> simp [Option.filter]
  rest := rfl
  held := add_zero _

/-- The rewritten node goes. What it held was not rewritten. -/
theorem without {current : Node} (felled : Felled tree gone (some (id, current)) tree')
    (same : current.payload.holdings = node.payload.holdings) :
    Felled tree (gone ++ [(id, node)]) none
      (forget { tree' with
        nodes := tree'.nodes.erase id
        stats := { tree'.stats with freed := tree'.stats.freed + 1 } } id) := by
  have look := SlotTable.get?_erase tree'.nodes id
  refine ⟨?_, nofun, ?_, ?_, ?_, ?_, ?_, ?_, ?_⟩
  · intro other member
    change (tree'.nodes.erase id).get? other = none
    rw [look]
    split
    · rfl
    · rename_i different
      simp only [List.map_append, List.map_cons, List.map_nil, List.mem_append,
        List.mem_singleton] at member
      exact felled.absent other (member.resolve_right different)
  · intro other absent _
    simp only [List.map_append, List.map_cons, List.map_nil, List.mem_append,
      List.mem_singleton, not_or] at absent
    change (tree'.nodes.erase id).get? other = _
    rw [look, if_neg absent.2]
    exact felled.others other absent.1 fun here => absent.2 (Option.some.inj here).symm
  · change (tree'.queue.erase id).leaves.Perm _
    have rest := felled.queue.filter (·.node != id)
    rw [List.filter_filter] at rest
    refine (LeafQueue.erase_perm _ id).trans (rest.trans (.of_eq (List.filter_congr ?_)))
    intro entry _
    exact (congrFun notMem_snoc entry.node).symm
  · change tree'.activePath.filter (· != id) = _
    rw [felled.activePath, List.filter_filter, notMem_snoc]
  · change (if tree'.focus = some id then none else tree'.focus) = _
    rw [felled.focus, filter_pointer, notMem_snoc]
  · change (if tree'.root = some id then none else tree'.root) = _
    rw [felled.root, filter_pointer, notMem_snoc]
  · unfold forget
    rw [felled.rest]
    simp only [List.length_append, List.length_singleton, add_assoc]
    rfl
  · change nodeHoldings (tree'.nodes.erase id) + _ = _
    rw [List.map_append, List.sum_append, List.map_singleton, List.sum_singleton, ← same,
      ← felled.held, ← nodeHoldings_erase (felled.present id current rfl)]
    abel

/-- A node that is still there is rewritten. It holds what it held. -/
theorem write (felled : Felled tree gone none tree') (found : tree'.nodes.get? id = some node)
    {node' : Node} (same : node'.payload.holdings = node.payload.holdings) :
    Felled tree gone (some (id, node')) (tree'.setNode id node') := by
  have look := SlotTable.get?_set found node'
  refine ⟨?_, ?_, ?_, felled.queue, felled.activePath, felled.focus, felled.root, ?_, ?_⟩
  · intro other member
    change (tree'.nodes.set id node').get? other = none
    rw [look]
    split
    · rename_i here
      rw [← here, felled.absent other member] at found
      cases found
    · exact felled.absent other member
  · intro other written here
    cases here
    change (tree'.nodes.set id node').get? id = _
    rw [look, if_pos rfl]
  · intro other absent different
    change (tree'.nodes.set id node').get? other = _
    rw [look, if_neg fun here => different (congrArg some here.symm)]
    exact felled.others other absent (Option.some_ne_none other).symm
  · unfold setNode
    rw [felled.rest]
  · exact (congrArg (· + _) (nodeHoldings_rewrite found same)).trans felled.held

end Felled

theorem detach_forgets (found : tree.nodes.get? id = some node) :
    (detach id).Completes tree fun taken tree' => taken = node ∧ tree' = forget { tree with
      nodes := tree.nodes.erase id
      stats := { tree.stats with freed := tree.stats.freed + 1 } } id := by
  unfold detach
  rw [Completes, ensures_bind]
  apply (take_ensures found).imp
  · intro taken tree' done
    rw [done.1, done.2]
    exact ⟨rfl, rfl⟩
  · intro _ _ no
    exact no

theorem doomed_cons (first : NodeId × Node) {next : NodeId × Node} {above : List (NodeId × Node)} :
    doomed (first :: next :: above) =
      if goesAlong next then first :: doomed (next :: above) else [first] := by
  change first :: List.takeWhile goesAlong (next :: above) = _
  rw [List.takeWhile_cons]
  split <;> rfl

theorem survivor_cons (first : NodeId × Node) {next : NodeId × Node}
    {above : List (NodeId × Node)} :
    survivor (first :: next :: above) =
      if goesAlong next then survivor (next :: above) else some next := by
  unfold survivor
  rw [List.tail_cons, List.dropWhile_cons]
  split <;> rfl

/-- The node that a removal leaves with a child less. -/
def heir (way : List (NodeId × Node)) : Option (NodeId × Node) :=
  (survivor way).map fun step => (step.1, step.2.lowered)

variable {s s' : Linked Tree} {owed : Holdings} {way : List (NodeId × Node)}

/-- Part of the way through a removal. -/
structure Felling (s : Linked Tree) (owed : Holdings) (gone : List (NodeId × Node))
    (written : Option (NodeId × Node)) (s' : Linked Tree) : Prop where
  settled : Settled s' owed
  felled : Felled s.own gone written s'.own
  still : Still s.lp s'.lp

/-- One node goes, and what it held is released. -/
theorem Felling.step {current : Node} (felling : Felling s owed gone (some (id, current)) s')
    (same : current.payload.holdings = node.payload.holdings)
    {next : Node → Action (Linked Tree) Unit} {done : Unit → Linked Tree → Prop}
    (further : ∀ s'', Felling s owed (gone ++ [(id, node)]) none s'' →
      (next current).Completes s'' done) :
    (do
      let node ← onOwn (detach id)
      onLp (releasePayload node.payload)
      Action.emit (.nodeFreed id.index node.depth)
      next node : Action (Linked Tree) Unit).Completes s' done := by
  have found := felling.felled.present id current rfl
  rw [Completes, ensures_bind, ensures_onOwn]
  apply (detach_forgets found).imp
  · intro taken tree' detached
    obtain ⟨rfl, rfl⟩ := detached
    have given : s'.lp.Balanced
        (owed + nodeHoldings (s'.own.nodes.erase id) + taken.payload.holdings) := by
      rw [add_assoc, nodeHoldings_erase found]
      exact felling.settled
    rw [ensures_bind, ensures_onLp]
    apply (releasePayload_ensures taken.payload given).imp
    · intro _ lp' released
      rw [ensures_bind, ensures_emit]
      exact further _ ⟨released.1, felling.felled.without same, felling.still.trans released.2⟩
    · intro _ _ no
      exact no
  · intro _ _ no
    exact no

/-- A removal goes on to the first ancestor that has another child. -/
theorem freeUpwards_fells (shaped : s.desk.Shaped)
    (climbs : Climbs s.own.nodes (fun _ => false) id way) (distinct : (way.map Prod.fst).Nodup)
    (apart : ∀ id ∈ way.map Prod.fst, id ∉ gone.map Prod.fst) {current : Node}
    (same : ∀ node, s.own.nodes.get? id = some node →
      current.parent = node.parent ∧ current.payload.holdings = node.payload.holdings)
    (felling : Felling s owed gone (some (id, current)) s') {steps : Nat}
    (enough : way.length ≤ steps) :
    (freeUpwards steps id).Completes s' fun _ s'' =>
      Felling s owed (gone ++ doomed way) (heir way) s'' := by
  induction climbs generalizing s' gone current steps with
  | @last id node found ends =>
    obtain ⟨parent, holdings⟩ := same node found
    obtain ⟨steps, rfl⟩ := Nat.exists_eq_add_one_of_ne_zero (Nat.ne_of_gt enough)
    have top : current.parent = none := parent.trans (ends.resolve_right Bool.false_ne_true)
    unfold freeUpwards
    apply felling.step holdings
    intro s'' done
    rw [top]
    exact done
  | @step id above node path found parent goes climbs ih =>
    obtain ⟨parent', holdings⟩ := same node found
    obtain ⟨upper, rest, rfl, foundUpper⟩ := climbs.first
    rw [List.length_cons] at enough
    obtain ⟨steps, rfl⟩ : ∃ more, steps = more + 1 := ⟨steps - 1, by omega⟩
    rw [List.map_cons, List.nodup_cons] at distinct
    have apart' : ∀ other ∈ ((above, upper) :: rest).map Prod.fst,
        other ∉ (gone ++ [(id, node)]).map Prod.fst := by
      intro other member earlier
      simp only [List.map_append, List.map_cons, List.map_nil, List.mem_append,
        List.mem_singleton] at earlier
      obtain old | rfl := earlier
      · exact apart other (List.mem_cons_of_mem _ member) old
      · exact distinct.1 member
    have absent := apart' above List.mem_cons_self
    obtain ⟨payload, released⟩ : ∃ payload,
        upper.payload.releaseChild above.index = .ok payload := by
      obtain ⟨upper', foundUpper', inner, _⟩ := shaped.parent id node above found parent
      cases foundUpper.symm.trans foundUpper'
      exact Payload.releaseChild_live inner (shaped.not_childless foundUpper found parent) _
    have lowered : { upper with payload := payload } = upper.lowered :=
      congrArg (fun payload => { upper with payload := payload }) (Payload.releaseChild_eq released)
    unfold freeUpwards
    apply felling.step holdings
    intro s'' done
    have foundHere : s''.own.nodes.get? above = some upper := by
      rw [done.felled.others above absent (Option.some_ne_none above).symm]
      exact foundUpper
    have held : upper.lowered.payload.holdings = upper.payload.holdings :=
      Payload.holdings_withChildren _ _
    have written := done.felled.write foundHere held
    have felling' : Felling s owed (gone ++ [(id, node)]) (some (above, upper.lowered))
        ⟨s''.own.setNode above upper.lowered, s''.lp⟩ :=
      ⟨done.settled.congr (nodeHoldings_rewrite foundHere held), written, done.still⟩
    rw [parent', parent]
    dsimp only
    rw [Completes, ensures_bind, ensures_onOwn]
    apply (releaseChild_ensures foundHere released).imp
    · intro remaining tree'' counted
      obtain ⟨rfl, rfl⟩ := counted
      unfold setPayload
      rw [lowered]
      obtain ⟨_, _, _, _, fewer, _⟩ := Payload.releaseChild_ok released
      have goes : goesAlong (above, upper) = decide (payload.children = 0) := by
        unfold goesAlong
        rw [fewer, Bool.eq_iff_iff, beq_iff_eq, decide_eq_true_eq]
        omega
      unfold heir
      rw [doomed_cons, survivor_cons, goes]
      by_cases last : payload.children = 0
      · rw [if_pos last, if_pos (decide_eq_true last), if_pos (decide_eq_true last),
          ← List.singleton_append, ← List.append_assoc]
        apply ih distinct.2 apart' ?_ felling' (Nat.le_of_succ_le_succ enough)
        intro other here
        cases foundUpper.symm.trans here
        exact ⟨rfl, Payload.holdings_withChildren _ _⟩
      · rw [if_neg last, if_neg (by simp [last]), if_neg (by simp [last])]
        exact felling'
    · intro _ _ no
      exact no

/-! ### What a removal comes to -/

/-- What is removed along a way, and what is released with it. -/
structure Removed (s : Linked Tree) (way : List (NodeId × Node)) (s' : Linked Tree) : Prop where
  tree : Felled s.own (doomed way) (heir way) s'.own
  /-- The node that stays has other children. -/
  several : ∀ step, survivor way = some step → 1 < step.2.payload.children
  lp : s.lp.Lightened ((doomed way).flatMap (·.2.payload.rows))
    ((doomed way).filterMap (·.2.payload.basis?)) s'.lp

theorem sum_holdings (gone : List (NodeId × Node)) :
    (gone.map fun step => step.2.payload.holdings).sum =
      ⟨gone.flatMap (·.2.payload.rows), 0, gone.filterMap (·.2.payload.basis?)⟩ := by
  induction gone with
  | nil => rfl
  | cons first rest ih =>
    rw [List.map_cons, List.sum_cons, ih, List.flatMap_cons, List.filterMap_cons]
    unfold Payload.holdings
    cases warm : first.2.payload.basis? with
    | none => ext1 <;> simp [Holdings.ofRows, Holdings.ofBases]
    | some basis => ext1 <;> simp [Holdings.ofRows, Holdings.ofBases]

/-- What nodes held that are gone has fewer users. -/
theorem lightened_of_held (settled : Settled s owed) (settled' : Settled s' owed)
    (still : Still s.lp s'.lp)
    (held : nodeHoldings s'.own.nodes + (gone.map fun step => step.2.payload.holdings).sum =
      nodeHoldings s.own.nodes) :
    s.lp.Lightened (gone.flatMap (·.2.payload.rows)) (gone.filterMap (·.2.payload.basis?))
      s'.lp := by
  have before : s.lp.Balanced (owed + nodeHoldings s.own.nodes) := settled
  have after : s'.lp.Balanced (owed + nodeHoldings s'.own.nodes) := settled'
  have moved : owed + nodeHoldings s'.own.nodes + ⟨gone.flatMap (·.2.payload.rows), 0,
      gone.filterMap (·.2.payload.basis?)⟩ = owed + nodeHoldings s.own.nodes + 0 := by
    rw [← held, sum_holdings, add_zero, add_assoc]
  have loaded := still.loadedRows
  have columns : s'.lp.loadedColumns = s.lp.loadedColumns := by
    rw [still.same]
  refine ⟨fun row => ?_, fun basis => ?_, fun column => ?_, still⟩
  · have users := before.users_rows after moved row
    rw [loaded] at users
    simpa using users
  · simpa using before.users_bases after moved basis
  · have users := before.users_columns after moved column
    rw [columns] at users
    simpa using users

/-- What is released has fewer users. -/
theorem Felling.lightened {written : Option (NodeId × Node)}
    (felling : Felling s owed gone written s') (settled : Settled s owed) :
    s.lp.Lightened (gone.flatMap (·.2.payload.rows)) (gone.filterMap (·.2.payload.basis?))
      s'.lp :=
  lightened_of_held settled felling.settled felling.still felling.felled.held

/-- The nodes above others count children. -/
theorem parents_of_climbs (shaped : s.desk.Shaped)
    (climbs : Climbs s.own.nodes (fun _ => false) id way) :
    ∀ step ∈ way.tail, 0 < step.2.payload.children := by
  induction climbs with
  | last => exact fun _ member => absurd member List.not_mem_nil
  | step found parent goes climbs ih =>
    obtain ⟨upper, rest, rfl, foundUpper⟩ := climbs.first
    intro step member
    obtain rfl | later := List.mem_cons.1 member
    · exact shaped.not_childless foundUpper found parent
    · exact ih step later

theorem several_of_climbs (shaped : s.desk.Shaped)
    (climbs : Climbs s.own.nodes (fun _ => false) id way) {step : NodeId × Node}
    (stays : survivor way = some step) : 1 < step.2.payload.children := by
  have member : step ∈ way.tail :=
    (List.dropWhile_sublist goesAlong).subset (List.mem_of_head? stays)
  have parent := parents_of_climbs shaped climbs step member
  have other : goesAlong step = false := by
    have head := List.head?_dropWhile_not goesAlong way.tail
    unfold survivor at stays
    rw [stays] at head
    exact head
  unfold goesAlong at other
  rw [beq_eq_false_iff_ne] at other
  omega

theorem freeNode_removes (settled : Settled s owed) (shaped : s.desk.Shaped)
    (found : s.own.nodes.get? id = some node) (childless : node.payload.children = 0) :
    ∃ above, s.own.ascend (fun _ => false) s.own.nodes.slots.size id = .ok ((id, node) :: above) ∧
      (freeNode id).Completes s fun _ s' => Removed s ((id, node) :: above) s' := by
  obtain ⟨way, climbs, short⟩ := shaped.climbs (fun _ => false) found
  have enough : way.length ≤ s.own.nodes.slots.size :=
    Nat.le_trans short (shaped.depth_lt found)
  obtain ⟨first, above, rfl, here⟩ := climbs.first
  cases found.symm.trans here
  refine ⟨above, ascend_of_climbs climbs enough, ?_⟩
  unfold freeNode
  rw [Completes, ensures_bind, ensures_get]
  dsimp only
  apply Completes.of_read (a := node)
  · exact node_ok.2 found
  rw [if_neg (by omega)]
  have distinct := (ascends_of_climbs climbs).1.nodup
  apply Completes.mono (freeUpwards_fells shaped climbs distinct (fun _ _ => List.not_mem_nil)
    (fun other same => ?_) ⟨settled, .start found, .rfl⟩ enough)
  · intro _ s' done
    exact ⟨done.felled, fun step stays => several_of_climbs shaped climbs stays,
      done.lightened settled⟩
  · cases found.symm.trans same
    exact ⟨rfl, rfl⟩

end Tree

open BranchCutPrice.Action

variable {ι : Type} [Fintype ι] [DecidableEq ι] [Inhabited ι] {rule : Rule ι} {w : World ι}

/-- A node without children can be removed. It goes with the ancestors that have no other child,
and nothing else goes. -/
theorem freeNode_exact (reached : Reachable rule w) (p : ι) {id : NodeId} {node : Node}
    (found : (w.trees p).node id = .ok node) (childless : node.payload.children = 0) :
    (Tree.freeNode id ⟨w.trees p, w.lp⟩).result = .ok () ∧
      ∃ above, (w.trees p).ascend (fun _ => false) (w.trees p).nodes.slots.size id =
          .ok ((id, node) :: above) ∧
        Tree.Removed ⟨w.trees p, w.lp⟩ ((id, node) :: above)
          (Tree.freeNode id ⟨w.trees p, w.lp⟩).state := by
  obtain ⟨_, settled, shaped⟩ := reached.linked p
  obtain ⟨above, ascends, removes⟩ :=
    Tree.freeNode_removes settled shaped (Tree.node_ok.1 found) childless
  obtain ⟨_, ended, removed⟩ := ensures_never removes
  exact ⟨ended, above, ascends, removed⟩

/-- A root with two children, the first of which has one child, a leaf that added a row. -/
def World.grown : World Unit :=
  World.initial.after (rooting ++
    [.tree () (.promote ⟨0, 0⟩), .tree () (.createLeaf ⟨0, 0⟩ ⟨0, 0⟩),
      .tree () (.createLeaf ⟨0, 0⟩ ⟨0, 0⟩), .tree () (.leafToFork ⟨1, 0⟩),
      .tree () (.createLeaf ⟨1, 0⟩ ⟨0, 0⟩)])

theorem World.grown_reachable : Reachable (fun _ _ => True) World.grown := by
  have plays : Plays (fun _ _ => True) World.initial (rooting ++
      [.tree () (.promote ⟨0, 0⟩), .tree () (.createLeaf ⟨0, 0⟩ ⟨0, 0⟩),
        .tree () (.createLeaf ⟨0, 0⟩ ⟨0, 0⟩), .tree () (.leafToFork ⟨1, 0⟩),
        .tree () (.createLeaf ⟨1, 0⟩ ⟨0, 0⟩)]) := by
    decide +kernel
  exact plays.reachable

theorem freeNode_exact_grown :
    ∃ node, (World.grown.trees ()).node ⟨3, 0⟩ = .ok node ∧ node.payload.children = 0 ∧
      (Tree.freeNode ⟨3, 0⟩ ⟨World.grown.trees (), World.grown.lp⟩).result = .ok () ∧
      ∃ above, (World.grown.trees ()).ascend (fun _ => false) 4 ⟨3, 0⟩ =
          .ok ((⟨3, 0⟩, node) :: above) ∧
        (Tree.doomed ((⟨3, 0⟩, node) :: above)).map Prod.fst = [⟨3, 0⟩, ⟨1, 0⟩] ∧
        Tree.Removed ⟨World.grown.trees (), World.grown.lp⟩ ((⟨3, 0⟩, node) :: above)
          (Tree.freeNode ⟨3, 0⟩ ⟨World.grown.trees (), World.grown.lp⟩).state := by
  obtain ⟨node, found, childless⟩ : ∃ node,
      (World.grown.trees ()).node ⟨3, 0⟩ = .ok node ∧ node.payload.children = 0 :=
    ⟨_, rfl, rfl⟩
  obtain ⟨ended, above, ascends, removed⟩ :=
    freeNode_exact World.grown_reachable () found childless
  refine ⟨node, found, childless, ended, above, ascends, ?_, removed⟩
  have names : ((World.grown.trees ()).ascend (fun _ => false) 4 ⟨3, 0⟩).map
      (fun way => (Tree.doomed way).map Prod.fst) = .ok [⟨3, 0⟩, ⟨1, 0⟩] := by
    decide +kernel
  rw [show (World.grown.trees ()).ascend (fun _ => false) 4 ⟨3, 0⟩ = _ from ascends] at names
  exact Except.ok.inj names

end BranchCutPrice
