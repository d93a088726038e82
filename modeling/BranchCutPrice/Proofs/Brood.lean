import BranchCutPrice.Proofs.Orderly
import BranchCutPrice.Proofs.Retention

/-!
Children that are created one after the other. Each is a leaf of its own below the same node, is
given its changes, and is queued; nothing else differs. An empty domain stops this in between,
with a leaf that is not queued.
-/

namespace BranchCutPrice

/-- A new leaf below a node. -/
def Node.child (id : NodeId) (node : Node) (basis : BasisId) (seq : Nat)
    (changes : List BoundChange) : Node where
  payload := .leaf basis []
  parent := some id
  constraints := []
  domain := changes
  bound := node.bound
  depth := node.depth + 1
  active := false
  seq := seq

/-- A node that counts more children. -/
def Node.grown (node : Node) (count : Nat) : Node :=
  { node with payload := node.payload.withChildren (node.payload.children + count) }

theorem Node.grown_zero (node : Node) : node.grown 0 = node := by
  cases node with
  | mk payload => cases payload <;> rfl

theorem Node.grown_grown {node : Node} (inner : node.payload.kind ≠ .leaf) (first second : Nat) :
    (node.grown first).grown second = node.grown (first + second) := by
  unfold grown
  rw [Payload.children_withChildren inner, Payload.withChildren_withChildren, add_assoc]

theorem Node.holdings_grown (node : Node) (count : Nat) :
    (node.grown count).payload.holdings = node.payload.holdings :=
  Payload.holdings_withChildren _ _

/-- A leaf as it is queued now. -/
def LeafQueue.entry (queue : LeafQueue) (leaf : NodeId × Node) : QueuedLeaf :=
  ⟨leaf.1, leaf.2.bound, leaf.2.seq, queue.priority leaf.2.bound leaf.2.depth⟩

namespace Tree

open BranchCutPrice.Action Relaxation

/-- A node has got children, some of which are queued. -/
structure Brood (tree : Tree) (id : NodeId) (node : Node) (kids queued : List (NodeId × Node))
    (tree' : Tree) : Prop where
  found : tree.nodes.get? id = some node
  parent : tree'.nodes.get? id = some (node.grown kids.length)
  fresh : ∀ kid ∈ kids, tree.nodes.get? kid.1 = none
  distinct : (kids.map Prod.fst).Nodup
  present : ∀ kid ∈ kids, tree'.nodes.get? kid.1 = some kid.2
  others : ∀ other, other ≠ id → other ∉ kids.map Prod.fst →
    tree'.nodes.get? other = tree.nodes.get? other
  queue : tree'.queue.leaves.Perm (queued.map tree.queue.entry ++ tree.queue.leaves)
  rest : tree' = { tree with
    nodes := tree'.nodes
    queue := { tree.queue with leaves := tree'.queue.leaves }
    nextSeq := tree.nextSeq + kids.length
    stats := { tree.stats with
      created := tree.stats.created + kids.length
      peak := tree'.stats.peak } }
  held : nodeHoldings tree'.nodes =
    nodeHoldings tree.nodes + (kids.map fun kid => kid.2.payload.holdings).sum

/-- A tree with a new leaf below a node. -/
def sprouted (tree : Tree) (id : NodeId) (node : Node) (basis : BasisId) : NodeId × Tree :=
  let inserted := (tree.nodes.set id (node.grown 1)).insert (.child id node basis tree.nextSeq [])
  (inserted.1, { tree with
    nodes := inserted.2
    nextSeq := tree.nextSeq + 1
    stats := { tree.stats with
      created := tree.stats.created + 1
      peak := max tree.stats.peak inserted.2.live } })

variable {tree tree' : Tree} {id child : NodeId} {node leaf leaf' : Node} {basis : BasisId}
  {kids queued : List (NodeId × Node)}

namespace Brood

theorem start (found : tree.nodes.get? id = some node) : Brood tree id node [] [] tree where
  found := found
  parent := node.grown_zero.symm ▸ found
  fresh _ member := absurd member List.not_mem_nil
  distinct := List.nodup_nil
  present _ member := absurd member List.not_mem_nil
  others _ _ _ := rfl
  queue := .refl _
  rest := rfl
  held := (add_zero _).symm

theorem ne_parent (brood : Brood tree id node kids queued tree') {kid : NodeId × Node}
    (member : kid ∈ kids) : kid.1 ≠ id := by
  intro same
  have stale := brood.fresh kid member
  rw [same, brood.found] at stale
  cases stale

/-- One more leaf is stored, and the parent counts it. -/
private theorem adopt (brood : Brood tree id node kids queued tree') {new : NodeId}
    {nodes : SlotTable .node Node} {peak : Nat} (stale : tree'.nodes.get? new = none)
    (look : ∀ other, nodes.get? other = if other = new then some leaf else
      if other = id then some (node.grown (kids.length + 1)) else tree'.nodes.get? other)
    (held : nodeHoldings nodes = nodeHoldings tree'.nodes + leaf.payload.holdings) :
    Brood tree id node (kids ++ [(new, leaf)]) queued { tree' with
      nodes := nodes
      nextSeq := tree'.nextSeq + 1
      stats := { tree'.stats with created := tree'.stats.created + 1, peak := peak } } := by
  have notParent : new ≠ id := by
    rintro rfl
    rw [brood.parent] at stale
    cases stale
  have notKid : new ∉ kids.map Prod.fst := by
    intro member
    obtain ⟨kid, earlier, name⟩ := List.mem_map.1 member
    have there := brood.present kid earlier
    rw [name, stale] at there
    cases there
  refine ⟨brood.found, ?_, fun kid member => ?_, ?_, fun kid member => ?_,
    fun other different absent => ?_, brood.queue, ?_, ?_⟩
  · rw [List.length_append]
    exact (look id).trans ((if_neg notParent.symm).trans (if_pos rfl))
  · obtain old | last := List.mem_append.1 member
    · exact brood.fresh kid old
    · cases List.mem_singleton.1 last
      exact (brood.others _ notParent notKid).symm.trans stale
  · rw [List.map_append, List.nodup_append]
    refine ⟨brood.distinct, List.nodup_singleton _, fun old member other last => ?_⟩
    cases List.mem_singleton.1 last
    rintro rfl
    exact notKid member
  · refine (look kid.1).trans ?_
    obtain old | last := List.mem_append.1 member
    · have different : kid.1 ≠ new := by
        rintro rfl
        exact notKid (List.mem_map_of_mem old)
      rw [if_neg different, if_neg (brood.ne_parent old)]
      exact brood.present kid old
    · cases List.mem_singleton.1 last
      exact if_pos rfl
  · rw [List.map_append, List.mem_append, not_or] at absent
    refine (look other).trans ?_
    rw [if_neg fun same => absent.2 (List.mem_singleton.2 same), if_neg different]
    exact brood.others other different absent.1
  · rw [brood.rest, List.length_append]
    simp only [add_assoc]
    rfl
  · rw [List.map_append, List.sum_append, ← add_assoc, ← brood.held, List.map_singleton,
      List.sum_singleton]
    exact held

/-- Another leaf is created. -/
theorem sprout (brood : Brood tree id node kids queued tree') (inner : node.payload.kind ≠ .leaf)
    (sound : tree'.nodes.Sound) (room : tree'.nodes.sizeAfter 1 ≤ 0x100000000) (basis : BasisId) :
    Brood tree id node
      (kids ++ [((sprouted tree' id (node.grown kids.length) basis).1,
        .child id node basis (tree.nextSeq + kids.length) [])])
      queued (sprouted tree' id (node.grown kids.length) basis).2 := by
  have seq : tree'.nextSeq = tree.nextSeq + kids.length := congrArg Tree.nextSeq brood.rest
  have counted := SlotTable.get?_set brood.parent (node.grown (kids.length + 1))
  have sound' := sound.set id (node.grown (kids.length + 1))
  rw [← SlotTable.sizeAfter_set _ id (node.grown (kids.length + 1))] at room
  have leaf : Node.child id (node.grown kids.length) basis tree'.nextSeq [] =
      .child id node basis (tree.nextSeq + kids.length) [] := by
    rw [seq]
    rfl
  unfold sprouted
  rw [Node.grown_grown inner, leaf]
  generalize Node.child id node basis (tree.nextSeq + kids.length) [] = leaf
  have fits := SlotTable.fits_insert room leaf
  have new := SlotTable.get?_new sound' fits
  have notParent : ((tree'.nodes.set id (node.grown (kids.length + 1))).insert leaf).1 ≠ id := by
    intro same
    rw [same, counted, if_pos rfl] at new
    cases new
  rw [counted, if_neg notParent] at new
  apply brood.adopt new
  · intro other
    rw [SlotTable.get?_insert sound' fits, counted]
  · rw [nodeHoldings_insert sound', nodeHoldings_rewrite brood.parent]
    rw [Node.holdings_grown, Node.holdings_grown]

/-- The last leaf is written to. -/
theorem write (brood : Brood tree id node (kids ++ [(child, leaf)]) queued tree')
    (same : leaf'.payload.holdings = leaf.payload.holdings) :
    Brood tree id node (kids ++ [(child, leaf')]) queued (tree'.setNode child leaf') := by
  have names : (kids ++ [(child, leaf')]).map Prod.fst =
      (kids ++ [(child, leaf)]).map Prod.fst := by
    rw [List.map_append, List.map_append]
    rfl
  have lengths : (kids ++ [(child, leaf')]).length = (kids ++ [(child, leaf)]).length := by
    rw [List.length_append, List.length_append]
    rfl
  have last : (child, leaf) ∈ kids ++ [(child, leaf)] := by simp
  have found := brood.present _ last
  have look := SlotTable.get?_set found leaf'
  refine ⟨brood.found, ?_, fun kid member => ?_, names ▸ brood.distinct, fun kid member => ?_,
    fun other different absent => ?_, brood.queue, ?_, ?_⟩
  · change (tree'.nodes.set child leaf').get? id = _
    rw [look, if_neg (brood.ne_parent last).symm, brood.parent, lengths]
  · obtain old | new := List.mem_append.1 member
    · exact brood.fresh kid (List.mem_append_left _ old)
    · cases List.mem_singleton.1 new
      exact brood.fresh (child, leaf) last
  · change (tree'.nodes.set child leaf').get? kid.1 = _
    rw [look]
    obtain old | new := List.mem_append.1 member
    · have different : kid.1 ≠ child := by
        have distinct := brood.distinct
        rw [List.map_append, List.nodup_append] at distinct
        exact distinct.2.2 _ (List.mem_map_of_mem old) _ (List.mem_singleton.2 rfl)
      rw [if_neg different]
      exact brood.present kid (List.mem_append_left _ old)
    · cases List.mem_singleton.1 new
      rw [if_pos rfl]
  · change (tree'.nodes.set child leaf').get? other = _
    rw [names] at absent
    have apart : other ≠ child := by
      rintro rfl
      exact absent (List.mem_map_of_mem last)
    rw [look, if_neg apart]
    exact brood.others other different absent
  · unfold setNode
    rw [lengths, brood.rest]
  · refine (nodeHoldings_rewrite found same).trans (brood.held.trans ?_)
    rw [List.map_append, List.map_append, List.map_singleton, List.map_singleton, same]

/-- The last leaf is queued. -/
theorem enqueue (brood : Brood tree id node (kids ++ [(child, leaf)]) queued tree') :
    Brood tree id node (kids ++ [(child, leaf)]) (queued ++ [(child, leaf)])
      { tree' with queue := tree'.queue.push child leaf.bound leaf.depth leaf.seq } := by
  refine ⟨brood.found, brood.parent, brood.fresh, brood.distinct, brood.present, brood.others,
    ?_, ?_, brood.held⟩
  · have entry : tree'.queue.entry = tree.queue.entry := by
      rw [brood.rest]
      rfl
    have before := brood.queue.cons (tree'.queue.entry (child, leaf))
    refine (LeafQueue.push_perm _ child leaf.bound leaf.depth leaf.seq).trans (before.trans ?_)
    rw [entry, List.map_append, List.append_assoc]
    exact List.perm_middle.symm
  · rw [brood.rest]
    rfl

/-- Children of a node leave its own rows and those of all other nodes. -/
theorem replays (brood : Brood tree id node kids queued tree')
    (up : ∀ other node above, tree.nodes.get? other = some node → node.parent = some above →
      ∃ upper, tree.nodes.get? above = some upper)
    {other : NodeId} {rows : List RowId} (replays : Replays tree.nodes other rows) :
    Replays tree'.nodes other rows := by
  refine replays.transfer (fun other => ∃ node, tree.nodes.get? other = some node) replays.live
    (fun other node above _ => up other node above) fun other contribution live traced => ?_
  obtain ⟨old, found⟩ := live
  rw [← traced]
  unfold Replays.trace
  by_cases same : other = id
  · subst same
    rw [brood.parent, brood.found, Option.map_some, Option.map_some]
    unfold Node.grown
    cases node.payload <;> rfl
  · have absent : other ∉ kids.map Prod.fst := by
      intro member
      obtain ⟨kid, here, rfl⟩ := List.mem_map.1 member
      rw [brood.fresh kid here] at found
      cases found
    rw [brood.others other same absent]

end Brood

/-! ### Creating, changing and queueing a leaf -/

variable {change : BoundChange}

theorem createLeaf_sprouts {s : Linked Tree} (found : s.own.nodes.get? id = some node)
    (inner : node.payload.kind ≠ .leaf) (live : s.lp.bases.contains basis = true) :
    (createLeaf id basis).Completes s fun leaf s' => leaf = (sprouted s.own id node basis).1 ∧
      s'.own = (sprouted s.own id node basis).2 ∧
      ∃ bases, s.lp.bases.capture basis = .ok bases ∧ s'.lp = { s.lp with bases := bases } := by
  unfold createLeaf createNode
  have inherits : s.own.heritage (some id) = .ok (node.bound, node.depth + 1) := by
    unfold heritage
    simp only [node_ok.2 found, bind, Except.bind]
    exact if_neg inner
  obtain ⟨bases, captured⟩ := Registry.capture_live live
  apply Completes.of_read (a := (node.bound, node.depth + 1))
  · exact inherits
  dsimp only
  rw [Completes, ensures_bind, ensures_onLp]
  apply ensures_change.2
  rw [captured]
  constructor
  · intro lp' same
    cases same
    have counts := captureChild_ensures found (Payload.captureChild_eq inner _)
    change ((onOwn (captureChild id) >>= fun _ => pure ()) >>= _).Ensures _ _ _
    rw [ensures_bind, ensures_bind, ensures_onOwn]
    apply counts.imp
    · intro _ tree' same
      rw [same, ensures_pure, ensures_bind, ensures_onOwn]
      unfold allocate
      rw [ensures_modifyGet, ensures_bind, ensures_emit]
      exact ⟨rfl, rfl, bases, rfl, rfl⟩
    · intro _ _ no
      exact no.elim
  · intro _ refused
    cases refused

theorem addDomainChange_writes (found : tree.nodes.get? id = some node) (change : BoundChange) :
    (addDomainChange id change).Ensures tree
      (fun _ tree' => change.isInfeasible = false ∧
        tree' = tree.setNode id { node with domain := node.domain ++ [change] })
      (fun e tree' => change.isInfeasible = true ∧
        e = .invalid (.emptyDomain change.var id.index) ∧ tree' = tree) := by
  apply ensures_change.2
  by_cases empty : change.isInfeasible = true
  · rw [if_pos empty]
    refine ⟨nofun, fun e refused => ?_⟩
    cases refused
    exact ⟨empty, rfl, rfl⟩
  · rw [if_neg empty, node_ok.2 found]
    refine ⟨fun tree' changed => ?_, nofun⟩
    cases changed
    exact ⟨Bool.eq_false_iff.2 empty, rfl⟩

theorem insertLeaf_pushes (found : tree.nodes.get? id = some node) (leaf : node.kind = .leaf)
    (absent : ∀ entry ∈ tree.queue.leaves, entry.node ≠ id) :
    (insertLeaf id).Completes tree fun _ tree' =>
      tree' = { tree with queue := tree.queue.push id node.bound node.depth node.seq } := by
  have got : tree.getLeaf id = .ok node := getLeaf_ok.2 ⟨found, Payload.kind_leaf.1 leaf⟩
  have out : ¬tree.queue.contains id = true := by
    rw [LeafQueue.contains_iff]
    rintro ⟨entry, member, here⟩
    exact absent entry member here
  apply ensures_change.2
  rw [got]
  simp only [bind, Except.bind]
  rw [if_neg out]
  refine ⟨fun tree' changed => ?_, nofun⟩
  cases changed
  rfl

end Tree

namespace Session

open BranchCutPrice.Action BranchCutPrice.Tree

/-- Part of the way through the creation of children: the tree has got some of them, and each has
captured its warm start. -/
structure Breeding (s : Session) (id : NodeId) (node : Node) (kids queued : List (NodeId × Node))
    (s' : Session) : Prop where
  brood : Brood s.tree id node kids queued s'.tree
  sound : s'.tree.nodes.Sound
  size : ∀ more, s'.tree.nodes.sizeAfter more = s.tree.nodes.sizeAfter (more + kids.length)
  rest : s' = { s with tree := s'.tree, lp := s'.lp }
  lp : s'.lp = { s.lp with bases := s'.lp.bases }
  values : ∀ basis, s'.lp.bases.get basis = s.lp.bases.get basis

variable {s t : Session} {id child : NodeId} {node leaf : Node} {basis : BasisId}
  {kids queued : List (NodeId × Node)} {changes : List BoundChange}

namespace Breeding

theorem live (breeding : Breeding s id node kids queued t)
    (there : s.lp.bases.contains basis = true) : t.lp.bases.contains basis = true := by
  obtain ⟨value, got⟩ := Registry.contains_iff_get.1 there
  exact Registry.contains_iff_get.2 ⟨value, (breeding.values basis).trans got⟩

/-- A leaf is created. -/
theorem create (breeding : Breeding s id node kids queued t)
    (inner : node.payload.kind ≠ .leaf) (there : s.lp.bases.contains basis = true)
    (room : s.tree.nodes.sizeAfter (kids.length + 1) ≤ 0x100000000) :
    (onTree (createLeaf id basis)).Completes t fun leaf s' => Breeding s id node
      (kids ++ [(leaf, .child id node basis (s.tree.nextSeq + kids.length) [])]) queued s' := by
  apply ensures_run.2
  have room' : t.tree.nodes.sizeAfter 1 ≤ 0x100000000 := by
    rw [breeding.size, Nat.add_comm]
    exact room
  have inner' : (node.grown kids.length).payload.kind ≠ .leaf := by
    unfold Node.grown
    rw [Payload.kind_withChildren]
    exact inner
  apply (createLeaf_sprouts (s := ⟨t.tree, t.lp⟩) breeding.brood.parent inner'
    (breeding.live there)).mono
  intro leaf s' done
  obtain ⟨rfl, own, bases, captured, lp⟩ := done
  have sprouted := breeding.brood.sprout inner breeding.sound room' basis
  have sound := breeding.sound.set id ((node.grown kids.length).grown 1)
  change Breeding s id node _ queued { t with tree := s'.own, lp := s'.lp }
  rw [own, lp]
  refine ⟨sprouted, sound.insert _, fun more => ?_, ?_, ?_, fun other => ?_⟩
  · refine (SlotTable.sizeAfter_insert _ _ _).trans ?_
    rw [SlotTable.sizeAfter_set, breeding.size, List.length_append, List.length_singleton,
      Nat.add_right_comm, Nat.add_assoc]
  · rw [breeding.rest]
  · exact congrArg (fun lp : Relaxation => { lp with bases := bases }) breeding.lp
  · exact ((Registry.get_capture captured other).1).trans (breeding.values other)

/-- The leaf created last records a change, unless that has an empty domain. -/
theorem record (breeding : Breeding s id node (kids ++ [(child, leaf)]) queued t)
    (change : BoundChange) :
    (treePart.run (addDomainChange child change)).Ensures t
      (fun _ s' => change.isInfeasible = false ∧ Breeding s id node
        (kids ++ [(child, { leaf with domain := leaf.domain ++ [change] })]) queued s')
      (fun e s' => change.isInfeasible = true ∧
        e = .invalid (.emptyDomain change.var child.index) ∧ s' = t) := by
  have found := breeding.brood.present (child, leaf) (by simp)
  apply ensures_run.2
  apply (addDomainChange_writes found change).imp
  · intro _ tree' done
    obtain ⟨feasible, rfl⟩ := done
    refine ⟨feasible, breeding.brood.write rfl, breeding.sound.set _ _, fun more => ?_, ?_,
      breeding.lp, breeding.values⟩
    · have size := breeding.size more
      rw [List.length_append] at size ⊢
      exact (SlotTable.sizeAfter_set _ _ _ _).trans size
    · rw [breeding.rest]
      rfl
  · intro e tree' refused
    obtain ⟨empty, name, rfl⟩ := refused
    exact ⟨empty, name, rfl⟩

/-- The leaf created last is queued. -/
theorem queue (breeding : Breeding s id node (kids ++ [(child, leaf)]) kids t)
    (tidy : s.tree.Tidy) (isLeaf : leaf.kind = .leaf) :
    (treePart.run (insertLeaf child)).Completes t fun _ s' =>
      Breeding s id node (kids ++ [(child, leaf)]) (kids ++ [(child, leaf)]) s' := by
  have last : (child, leaf) ∈ kids ++ [(child, leaf)] := by simp
  have found := breeding.brood.present _ last
  have absent : ∀ entry ∈ t.tree.queue.leaves, entry.node ≠ child := by
    intro entry member
    obtain new | old := List.mem_append.1 (breeding.brood.queue.mem_iff.1 member)
    · obtain ⟨kid, earlier, rfl⟩ := List.mem_map.1 new
      have distinct := breeding.brood.distinct
      rw [List.map_append, List.nodup_append] at distinct
      exact distinct.2.2 _ (List.mem_map_of_mem earlier) _ (List.mem_singleton.2 rfl)
    · have stale := breeding.brood.fresh _ last
      apply tidy.absent _ old
      unfold Tree.leafAt
      rw [stale]
      rfl
  apply ensures_run.2
  apply (insertLeaf_pushes found isLeaf absent).mono
  intro _ tree' same
  rw [same]
  refine ⟨breeding.brood.enqueue, breeding.sound, breeding.size, ?_, breeding.lp,
    breeding.values⟩
  rw [breeding.rest]
  rfl

end Breeding

/-- The first change with an empty domain, the changes before it, and the lists before those. -/
structure Breaks (children front : List (List BoundChange)) (before : List BoundChange)
    (bad : BoundChange) : Prop where
  split : ∃ after back, children = front ++ (before ++ bad :: after) :: back
  front : ∀ changes ∈ front, ∀ change ∈ changes, change.isInfeasible = false
  before : ∀ change ∈ before, change.isInfeasible = false
  bad : bad.isInfeasible = true

theorem createChild_breeds (breeding : Breeding s id node kids kids t)
    (inner : node.payload.kind ≠ .leaf) (tidy : s.tree.Tidy)
    (there : s.lp.bases.contains basis = true)
    (room : s.tree.nodes.sizeAfter (kids.length + 1) ≤ 0x100000000)
    (changes : List BoundChange) :
    (createChild id basis changes).Ensures t
      (fun child s' => (∀ change ∈ changes, change.isInfeasible = false) ∧
        ∃ leaf, leaf = Node.child id node basis (s.tree.nextSeq + kids.length) changes ∧
          Breeding s id node (kids ++ [(child, leaf)]) (kids ++ [(child, leaf)]) s')
      (fun e s' => ∃ child before bad after, changes = before ++ bad :: after ∧
        (∀ change ∈ before, change.isInfeasible = false) ∧ bad.isInfeasible = true ∧
        e = .invalid (.emptyDomain bad.var child.index) ∧
        Breeding s id node (kids ++ [(child,
          .child id node basis (s.tree.nextSeq + kids.length) before)]) kids s') := by
  unfold createChild
  rw [ensures_bind]
  apply (breeding.create inner there room).imp
  · intro child t₁ created
    rw [ensures_bind]
    -- the changes before those still to come are recorded
    let reached (rest : List BoundChange) (s' : Session) : Prop := ∃ before,
      changes = before ++ rest ∧ (∀ change ∈ before, change.isInfeasible = false) ∧
        Breeding s id node (kids ++ [(child,
          .child id node basis (s.tree.nextSeq + kids.length) before)]) kids s'
    have start : reached changes t₁ := ⟨[], rfl, nofun, created⟩
    have step (change : BoundChange) (rest : List BoundChange) (s' : Session)
        (now : reached (change :: rest) s') :
        (treePart.run (addDomainChange child change)).Ensures s' (fun _ => reached rest)
          (fun e s' => ∃ child before bad after, changes = before ++ bad :: after ∧
            (∀ change ∈ before, change.isInfeasible = false) ∧ bad.isInfeasible = true ∧
            e = .invalid (.emptyDomain bad.var child.index) ∧
            Breeding s id node (kids ++ [(child,
              .child id node basis (s.tree.nextSeq + kids.length) before)]) kids s') := by
      obtain ⟨before, split, feasible, here⟩ := now
      apply (here.record change).imp
      · intro _ s'' done
        obtain ⟨this, further⟩ := done
        refine ⟨before ++ [change], by rw [split, List.append_assoc]; rfl, ?_, further⟩
        intro other member
        obtain earlier | last := List.mem_append.1 member
        · exact feasible other earlier
        · exact List.mem_singleton.1 last ▸ this
      · intro e s'' refused
        obtain ⟨empty, name, rfl⟩ := refused
        exact ⟨child, before, change, rest, split, feasible, empty, name, here⟩
    apply (ensures_forM reached step changes start).imp
    · intro _ t₂ done
      obtain ⟨before, split, feasible, recorded⟩ := done
      rw [List.append_nil] at split
      subst split
      rw [ensures_bind]
      apply (recorded.queue tidy rfl).imp
      · intro _ t₃ queued
        exact ⟨feasible, _, rfl, queued⟩
      · intro _ _ no
        exact no.elim
    · intro _ _ refused
      exact refused
  · intro _ _ no
    exact no.elim

/-- The leaves that lists of changes make below a node. -/
def litter (id : NodeId) (node : Node) (basis : BasisId) (seq : Nat)
    (children : List (List BoundChange)) : List Node :=
  children.mapIdx fun i changes => .child id node basis (seq + i) changes

theorem litter_cons (seq : Nat) (children : List (List BoundChange)) :
    litter id node basis seq (changes :: children) =
      .child id node basis seq changes :: litter id node basis (seq + 1) children := by
  unfold litter
  rw [List.mapIdx_cons]
  simp only [Nat.add_zero, Nat.add_assoc, Nat.add_comm 1]

theorem litter_length {seq : Nat} {children : List (List BoundChange)}
    (records : kids.map Prod.snd = litter id node basis seq children) :
    kids.length = children.length := by
  have lengths := congrArg List.length records
  unfold litter at lengths
  rwa [List.length_map, List.length_mapIdx] at lengths

theorem Breaks.length_lt {children front : List (List BoundChange)} {before : List BoundChange}
    {bad : BoundChange} (breaks : Breaks children front before bad) :
    front.length < children.length := by
  obtain ⟨after, back, rfl⟩ := breaks.split
  rw [List.length_append, List.length_cons]
  omega

theorem Breaks.not_feasible {children front : List (List BoundChange)} {before : List BoundChange}
    {bad : BoundChange} (breaks : Breaks children front before bad) :
    ¬∀ changes ∈ children, ∀ change ∈ changes, change.isInfeasible = false := by
  intro feasible
  obtain ⟨after, back, rfl⟩ := breaks.split
  have this := feasible (before ++ bad :: after) (by simp) bad (by simp)
  rw [breaks.bad] at this
  cases this

theorem Breaks.cons {children front : List (List BoundChange)} {before : List BoundChange}
    {bad : BoundChange} (breaks : Breaks children front before bad)
    (feasible : ∀ change ∈ changes, change.isInfeasible = false) :
    Breaks (changes :: children) (changes :: front) before bad := by
  obtain ⟨after, back, split⟩ := breaks.split
  refine ⟨⟨after, back, by rw [split]; rfl⟩, fun other member => ?_, breaks.before, breaks.bad⟩
  obtain rfl | later := List.mem_cons.1 member
  · exact feasible
  · exact breaks.front other later

/-- The children are created in order, up to the first one with an empty domain. -/
theorem createChildren_breeds (breeding : Breeding s id node kids kids t)
    (inner : node.payload.kind ≠ .leaf) (tidy : s.tree.Tidy)
    (there : s.lp.bases.contains basis = true) (children : List (List BoundChange))
    (room : s.tree.nodes.sizeAfter (kids.length + children.length) ≤ 0x100000000) :
    (createChildren id basis children).Ensures t
      (fun ids s' => ∃ more, ids = more.map Prod.fst ∧
        (∀ changes ∈ children, ∀ change ∈ changes, change.isInfeasible = false) ∧
        more.map Prod.snd = litter id node basis (s.tree.nextSeq + kids.length) children ∧
        Breeding s id node (kids ++ more) (kids ++ more) s')
      (fun e s' => ∃ front before bad more child, Breaks children front before bad ∧
        e = .invalid (.emptyDomain bad.var child.index) ∧
        more.map Prod.snd = litter id node basis (s.tree.nextSeq + kids.length) front ∧
        Breeding s id node (kids ++ more ++ [(child,
          .child id node basis (s.tree.nextSeq + (kids ++ more).length) before)])
          (kids ++ more) s') := by
  induction children generalizing kids t with
  | nil => exact ⟨[], rfl, nofun, rfl, by rw [List.append_nil]; exact breeding⟩
  | cons changes rest ih =>
    rw [List.length_cons] at room
    have one : s.tree.nodes.sizeAfter (kids.length + 1) ≤ 0x100000000 :=
      Nat.le_trans (SlotTable.sizeAfter_mono _ (by omega)) room
    unfold createChildren
    rw [ensures_bind]
    apply (createChild_breeds breeding inner tidy there one changes).imp
    · intro child t₁ created
      obtain ⟨feasible, leaf, here, created⟩ := created
      rw [ensures_bind]
      have room' : s.tree.nodes.sizeAfter ((kids ++ [(child, leaf)]).length + rest.length) ≤
          0x100000000 := by
        rw [List.length_append, List.length_singleton, Nat.add_assoc, Nat.add_comm 1]
        exact room
      have seqs : s.tree.nextSeq + (kids ++ [(child, leaf)]).length =
          s.tree.nextSeq + kids.length + 1 := by
        rw [List.length_append, List.length_singleton]
        omega
      apply (ih created room').imp
      · intro ids t₂ done
        obtain ⟨more, rfl, feasible', records, bred⟩ := done
        rw [seqs] at records
        rw [List.append_assoc] at bred
        refine ⟨(child, leaf) :: more, rfl, fun other member => ?_, ?_, bred⟩
        · obtain rfl | later := List.mem_cons.1 member
          · exact feasible
          · exact feasible' other later
        · rw [litter_cons, List.map_cons, records, here]
      · intro e t₂ refused
        obtain ⟨front, before, bad, more, last, breaks, name, records, bred⟩ := refused
        rw [seqs] at records
        rw [List.append_assoc kids] at bred
        refine ⟨changes :: front, before, bad, (child, leaf) :: more, last, breaks.cons feasible,
          name, ?_, bred⟩
        rw [litter_cons, List.map_cons, records, here]
    · intro e t₁ refused
      obtain ⟨child, before, bad, after, split, feasible, empty, name, bred⟩ := refused
      refine ⟨[], before, bad, [], child, ⟨⟨after, rest, by rw [split]; rfl⟩, nofun, feasible,
        empty⟩, name, rfl, ?_⟩
      rw [List.append_nil]
      exact bred

end Session

end BranchCutPrice
