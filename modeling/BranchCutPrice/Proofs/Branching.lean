import BranchCutPrice.Proofs.Advancing
import BranchCutPrice.Proofs.Atomicity
import BranchCutPrice.Proofs.Restart

/-!
Branching. A leaf that is the focus is promoted and gets its children, all of which start from
one new basis. An empty domain stops this after the promotion.
-/

namespace BranchCutPrice

namespace Tree

variable {tree tree' : Tree} {id : NodeId} {node : Node} {kids queued : List (NodeId × Node)}

/-- A leaf has become an inner node, with new leaves below it that rebuild the loaded rows. -/
structure Ramified (tree : Tree) (loaded : List RowId) (id : NodeId) (node : Node)
    (payload : Payload) (kids queued : List (NodeId × Node)) (tree' : Tree) : Prop where
  kind : payload = .fork node.payload.added kids.length ∨ payload = .subroot loaded kids.length
  parent : tree'.nodes.get? id = some { node with payload := payload }
  fresh : ∀ kid ∈ kids, tree.nodes.get? kid.1 = none
  distinct : (kids.map Prod.fst).Nodup
  present : ∀ kid ∈ kids, tree'.nodes.get? kid.1 = some kid.2
  others : ∀ other, other ≠ id → other ∉ kids.map Prod.fst →
    tree'.nodes.get? other = tree.nodes.get? other
  lpRows : ∀ other ∈ id :: kids.map Prod.fst, tree'.lpRows other = .ok loaded
  queue : tree'.queue.leaves.Perm
    (queued.map tree.queue.entry ++ tree.queue.leaves.filter (·.node != id))
  rest : tree' = { tree with
    nodes := tree'.nodes
    queue := { tree.queue with leaves := tree'.queue.leaves }
    nextSeq := tree.nextSeq + kids.length
    stats := tree'.stats }

end Tree

namespace Relaxation

variable {lp lp' : Relaxation} {owed owed' : Holdings} {node : Node} {payload : Payload}
  {snapshot : BasisId} {count : Nat}

/-- A node has exchanged what it holds, and some new leaves share a new basis. -/
structure Ramified (lp : Relaxation) (node : Node) (payload : Payload) (snapshot : BasisId)
    (count : Nat) (lp' : Relaxation) : Prop where
  fresh : lp.bases.contains snapshot = false
  value : lp'.bases.get snapshot = .ok lp.basis
  uses : lp'.bases.uses snapshot = .ok count
  bases : ∀ basis, basis ≠ snapshot →
    lp'.bases.users basis + (if node.payload.basis? = some basis then 1 else 0) =
      lp.bases.users basis
  rows : ∀ row, lp'.rows.users row + node.payload.rows.count row =
    lp.rows.users row + payload.rows.count row
  columns : ∀ column, lp'.columns.users column = lp.columns.users column
  rest : lp' = { lp with rows := lp'.rows, columns := lp'.columns, bases := lp'.bases }

/-- The accounts before and after tell the users. -/
theorem Ramified.of_balanced (before : lp.Balanced owed) (after : lp'.Balanced owed')
    (moved : owed' + node.payload.holdings =
      owed + (payload.holdings + .ofBases (Multiset.replicate count snapshot)))
    (inner : payload.basis? = none) (positive : 0 < count)
    (stale : lp.bases.table.get? snapshot = none) (other : node.payload.basis? ≠ some snapshot)
    (value : lp'.bases.contains snapshot = true → lp'.bases.get snapshot = .ok lp.basis)
    (rest : lp' = { lp with rows := lp'.rows, columns := lp'.columns, bases := lp'.bases }) :
    lp.Ramified node payload snapshot count lp' := by
  have loaded : lp'.loadedRows = lp.loadedRows := by
    rw [rest]
  have columns : lp'.loadedColumns = lp.loadedColumns := by
    rw [rest]
  have users (basis : BasisId) : lp'.bases.users basis +
      (if node.payload.basis? = some basis then 1 else 0) =
        lp.bases.users basis + if basis = snapshot then count else 0 := by
    have counts := before.users_bases after moved basis
    rw [Payload.count_holdings_bases, Holdings.bases_add, Multiset.count_add,
      Payload.count_holdings_bases, inner] at counts
    rw [counts]
    simp [Holdings.ofBases, Multiset.count_replicate, eq_comm]
  have unused : lp.bases.users snapshot = 0 := Registry.users_of_stale stale
  have used := users snapshot
  rw [if_neg other, if_pos rfl, unused, Nat.zero_add, Nat.add_zero] at used
  -- with users it has to be registered
  obtain ⟨object, found⟩ : ∃ object, lp'.bases.table.get? snapshot = some object := by
    cases found : lp'.bases.table.get? snapshot with
    | some object => exact ⟨object, rfl⟩
    | none =>
      rw [Registry.users_of_stale found] at used
      omega
  refine ⟨?_, value (SlotTable.contains_iff.2 ⟨object, found⟩), ?_, fun basis different => ?_,
    fun row => ?_, fun column => ?_, rest⟩
  · unfold Registry.contains SlotTable.contains
    rw [stale]
    rfl
  · rw [Registry.uses_named found, ← Registry.users_of_found found, used]
  · rw [users basis, if_neg different, Nat.add_zero]
  · have counts := before.users_rows after moved row
    rw [loaded, Payload.count_holdings_rows, Holdings.rows_add, Multiset.count_add,
      Payload.count_holdings_rows] at counts
    simp only [Holdings.ofBases, Multiset.count_zero] at counts
    omega
  · have counts := before.users_columns after moved column
    rw [columns, Holdings.columns_add, Multiset.count_add, Payload.count_holdings_columns,
      Payload.count_holdings_columns] at counts
    simp only [Holdings.ofBases, Multiset.count_zero] at counts
    omega

end Relaxation

namespace Session

open BranchCutPrice.Action Relaxation

variable {s t u : Session} {owed : Holdings} {id : NodeId} {node : Node} {payload : Payload}
  {warm snapshot : BasisId} {added : List RowId} {kids queued : List (NodeId × Node)}

/-- A node has been branched on, and some of its children are queued. -/
structure Ramified (s : Session) (id : NodeId) (node : Node) (payload : Payload)
    (snapshot : BasisId) (kids queued : List (NodeId × Node)) (s' : Session) : Prop where
  tree : s.tree.Ramified s.lp.loadedRows id node payload kids queued s'.tree
  lp : s.lp.Ramified node payload snapshot kids.length s'.lp
  rest : s' = { s with tree := s'.tree, lp := s'.lp }

/-- New leaves below a node that start from the same basis. -/
def Sprung (id : NodeId) (basis : BasisId) (kids : List (NodeId × Node)) : Prop :=
  ∀ kid ∈ kids, kid.2.parent = some id ∧ kid.2.payload = .leaf basis []

theorem Sprung.holdings (sprung : Sprung id snapshot kids) :
    (kids.map fun kid => kid.2.payload.holdings).sum =
      .ofBases (Multiset.replicate kids.length snapshot) := by
  induction kids with
  | nil => rfl
  | cons kid rest ih =>
    have first := (sprung kid List.mem_cons_self).2
    rw [List.map_cons, List.sum_cons, ih fun other member => sprung other (.tail _ member), first,
      Payload.holdings_leaf, List.length_cons, Multiset.replicate_succ]
    ext1 <;> simp [Holdings.ofRows, Holdings.ofBases]

theorem Sprung.append (sprung : Sprung id snapshot kids) (child : NodeId) (node : Node) (seq : Nat)
    (changes : List BoundChange) :
    Sprung id snapshot (kids ++ [(child, .child id node snapshot seq changes)]) := by
  intro kid member
  obtain earlier | last := List.mem_append.1 member
  · exact sprung kid earlier
  · cases List.mem_singleton.1 last
    exact ⟨rfl, rfl⟩

theorem snapshotBasis_takes (t : Session) :
    (lpPart.run snapshotBasis).Completes t fun basis t' =>
      basis = (t.lp.bases.insert t.lp.basis).1 ∧ t' = { t with lp := t.lp.snapshotted } := by
  apply ensures_run.2
  apply (snapshotBasis_inserts t.lp).mono
  intro basis lp' taken
  obtain ⟨rfl, rfl⟩ := taken
  exact ⟨rfl, rfl⟩

theorem releaseBasis_drops (t : Session) (basis : BasisId) :
    (lpPart.run (releaseBasis basis)).Ensures t
      (fun _ t' => ∃ freed bases, t.lp.bases.release basis = .ok (freed, bases) ∧
        t' = { t with lp := { t.lp with bases := bases } })
      (fun _ t' => t' = t) := by
  apply ensures_run.2
  apply (releaseBasis_releases t.lp basis).imp
  · intro _ lp' done
    obtain ⟨freed, bases, released, rfl⟩ := done
    exact ⟨freed, bases, released, rfl⟩
  · intro _ lp' same
    rw [same]
    rfl

namespace Advanced

theorem inner (advanced : Advanced s id node warm payload t) : payload.kind ≠ .leaf := by
  obtain rfl | rfl := advanced.kind <;> simp [Payload.kind]

theorem nextSeq (advanced : Advanced s id node warm payload t) :
    t.tree.nextSeq = s.tree.nextSeq := by
  have own : t.tree = _ := advanced.passed.rest
  rw [own]

/-- No child has been created yet. -/
theorem breeding (advanced : Advanced s id node warm payload t) :
    Breeding { t with lp := t.lp.snapshotted } id { node with payload := payload } [] []
      { t with lp := t.lp.snapshotted } := by
  have found := SlotTable.get?_set advanced.found { node with payload := payload } id
  rw [if_pos rfl, ← advanced.nodes] at found
  exact ⟨.start found, advanced.shaped.sound, fun _ => rfl, rfl, rfl, fun _ => rfl⟩

theorem ramified_tree (advanced : Advanced s id node warm payload t) {tree : Tree}
    (brood : Tree.Brood t.tree id { node with payload := payload } kids queued tree)
    (sprung : Sprung id snapshot kids) {loaded : List RowId} (shaped : (tree.desk loaded).Shaped) :
    s.tree.Ramified s.lp.loadedRows id node (payload.withChildren kids.length) kids queued
      tree := by
  have look := SlotTable.get?_set advanced.found { node with payload := payload }
  rw [← advanced.nodes] at look
  have replays := brood.replays
    (fun other node above found parent =>
      let ⟨upper, foundUpper, _⟩ := advanced.shaped.parent other node above found parent
      ⟨upper, foundUpper⟩)
    advanced.replays
  have childless : payload.children = 0 := by
    obtain rfl | rfl := advanced.kind <;> rfl
  refine ⟨?_, ?_, fun kid member => ?_, brood.distinct, brood.present,
    fun other different absent => ?_, fun other member => ?_, ?_, ?_⟩
  · obtain rfl | rfl := advanced.kind
    · exact .inl rfl
    · exact .inr rfl
  · rw [brood.parent]
    unfold Node.grown
    rw [childless, Nat.zero_add]
  · have stale := brood.fresh kid member
    rwa [look, if_neg (brood.ne_parent member)] at stale
  · rw [brood.others other different absent, look, if_neg different]
  · apply (Tree.lpRows_eq shaped).2
    obtain rfl | below := List.mem_cons.1 member
    · exact replays
    · obtain ⟨kid, here, rfl⟩ := List.mem_map.1 below
      obtain ⟨parent, new⟩ := sprung kid here
      have under := Replays.under (brood.present kid here) parent (by rw [new]; rfl) replays
      rw [new] at under
      exact List.append_nil s.lp.loadedRows ▸ under
  · have erased := advanced.passed.queue
    have entry : t.tree.queue.entry = s.tree.queue.entry := by
      change t.tree.queue = s.tree.queue.erase id at erased
      rw [erased]
      rfl
    have before := brood.queue
    rw [entry] at before
    refine before.trans (.append_left _ ?_)
    rw [erased]
    exact LeafQueue.erase_perm _ id
  · have own : t.tree = _ := advanced.passed.rest
    have queue : t.tree.queue = _ := advanced.passed.queue
    rw [brood.rest, own, queue]
    rfl

/-- What the leaf held has been exchanged, and every child has captured the new basis. -/
theorem moved {s' : Session} (advanced : Advanced s id node warm payload t)
    (rest : s' = { s with tree := s'.tree, lp := s'.lp })
    (brood : Tree.Brood t.tree id { node with payload := payload } kids queued s'.tree)
    (sprung : Sprung id snapshot kids) :
    owed + Ledger.held s' + node.payload.holdings = owed + Ledger.held s +
      (payload.holdings + .ofBases (Multiset.replicate kids.length snapshot)) := by
  obtain ⟨beside, here, there⟩ := tree_frames.rest s
  have after : Ledger.held s' = beside + nodeHoldings s'.tree.nodes := by
    rw [rest]
    exact there ⟨s'.tree, s'.lp⟩
  have before : Ledger.held s = beside + nodeHoldings s.tree.nodes := here
  have exchanged := nodeHoldings_set advanced.found { node with payload := payload }
  rw [← advanced.nodes] at exchanged
  rw [before, after, brood.held, sprung.holdings]
  calc
    _ = owed + beside + .ofBases (Multiset.replicate kids.length snapshot) +
        (nodeHoldings t.tree.nodes + node.payload.holdings) := by abel
    _ = _ := by
      rw [exchanged]
      abel

theorem fits (advanced : Advanced s id node warm payload t) (roomy : s.lp.bases.table.Roomy) :
    (t.lp.bases.insert t.lp.basis).2.table.Fits :=
  SlotTable.Roomy.fits_insert (advanced.still.slots.trans_lt roomy)

section Snapshot

variable (advanced : Advanced s id node warm payload t) (settledMid : Settled t owed)
  (roomy : s.lp.bases.table.Roomy) (snapshots : snapshot = (t.lp.bases.insert t.lp.basis).1)
include advanced settledMid roomy snapshots

theorem registered :
    t.lp.snapshotted.bases.table.get? snapshot = some ⟨t.lp.basis, 1⟩ := by
  have fits := advanced.fits roomy
  exact (SlotTable.get?_insert settledMid.bases.sound fits snapshot).trans (if_pos snapshots)

theorem live : t.lp.snapshotted.bases.contains snapshot = true :=
  SlotTable.contains_iff.2 ⟨_, advanced.registered settledMid roomy snapshots⟩

variable (settled : Settled s owed)
  (breeding : Breeding { t with lp := t.lp.snapshotted } id { node with payload := payload }
    kids queued u)
  (sprung : Sprung id snapshot kids) (positive : 0 < kids.length)
include settled breeding sprung positive

/-- The new basis is registered, and the children have been created and hold it. -/
theorem ramified {freed : Option Basis} {bases : Registry .basis Basis}
    (released : u.lp.bases.release snapshot = .ok (freed, bases)) {s' : Session}
    (same : s' = { u with lp := { u.lp with bases := bases } }) (settled' : Settled s' owed)
    (shaped' : s'.desk.Shaped) :
    Ramified s id node (payload.withChildren kids.length) snapshot kids queued s' := by
  have tree : s'.tree = u.tree := by
    rw [same]
  have relaxation : s'.lp = { u.lp with bases := bases } := by
    rw [same]
  have brood : Tree.Brood t.tree id { node with payload := payload } kids queued s'.tree :=
    tree ▸ breeding.brood
  have rest : s' = { s with tree := s'.tree, lp := s'.lp } := by
    rw [tree, relaxation, same, breeding.rest, advanced.rest]
  -- the slot of the old warm start may be taken again, but then it is in its next generation
  obtain ⟨spent, before⟩ := advanced.passed.released
  have stale := Registry.insert_released_stale settled.bases.sound before (advanced.fits roomy)
  rw [← snapshots] at stale
  have basis : t.lp.basis = s.lp.basis := by
    rw [advanced.still.same]
  refine ⟨advanced.ramified_tree brood sprung shaped',
    .of_balanced settled settled' ?_ ?_ positive stale ?_ ?_ ?_, rest⟩
  · rw [Payload.holdings_withChildren]
    exact advanced.moved rest brood sprung
  · obtain rfl | rfl := advanced.kind <;> rfl
  · intro warmed
    cases advanced.start.symm.trans warmed
    obtain ⟨object, there, _⟩ := Registry.release_ok before
    cases stale.symm.trans there
  · intro live
    rw [relaxation] at live ⊢
    rw [Registry.get_release_live released live, breeding.values, ← basis]
    exact Registry.get_named (advanced.registered settledMid roomy snapshots)
  · rw [relaxation, breeding.lp, snapshotted, advanced.still.same]

/-- The basis is released by whoever has registered it, whatever the outcome. -/
theorem ends (room : s.tree.nodes.sizeAfter kids.length ≤ 0x100000000)
    (held : Settled u (owed + .ofBases {snapshot}))
    (moves : Moves {.plain, .sprout} t.desk u.desk) (result : Except Error (List NodeId)) :
    (do
      lpPart.run (releaseBasis snapshot)
      Action.resume result).Ensures u
        (fun ids s' => result = Except.ok ids ∧
          Ramified s id node (payload.withChildren kids.length) snapshot kids queued s')
        (fun e s' => result = Except.error e ∧
          Ramified s id node (payload.withChildren kids.length) snapshot kids queued s') := by
  have fits : u.desk.nodes.Fits := by
    unfold SlotTable.Fits
    rw [← SlotTable.sizeAfter_zero]
    refine (breeding.size 0).trans_le ?_
    rw [Nat.zero_add]
    change t.tree.nodes.sizeAfter kids.length ≤ _
    rw [advanced.nodes, SlotTable.sizeAfter_set]
    exact room
  have shaped : u.desk.Shaped := moves.shaped advanced.shaped fits
  rw [ensures_bind]
  apply ((releaseBasis_settled held).and (releaseBasis_drops u snapshot)).imp
  · intro _ s' done
    obtain ⟨⟨settled', desk⟩, freed, bases, released, same⟩ := done
    have ramified := advanced.ramified settledMid roomy snapshots settled breeding sprung positive
      released same settled' (desk ▸ shaped)
    cases result with
    | ok => exact ⟨rfl, ramified⟩
    | error => exact ⟨rfl, ramified⟩
  · intro _ _ no
    exact no.1.elim

end Snapshot

end Advanced

theorem litter_sprung {seq : Nat} {children : List (List BoundChange)}
    (records : kids.map Prod.snd = litter id node snapshot seq children) :
    Sprung id snapshot kids := by
  intro kid member
  have here : kid.2 ∈ litter id node snapshot seq children :=
    records ▸ List.mem_map_of_mem member
  unfold litter at here
  obtain ⟨i, bound, record⟩ := List.mem_mapIdx.1 here
  rw [← record]
  exact ⟨rfl, rfl⟩

/-- All children have been created and queued. -/
def Whole (s : Session) (id : NodeId) (node : Node) (children : List (List BoundChange))
    (ids : List NodeId) (s' : Session) : Prop :=
  ∃ kids payload snapshot, ids = kids.map Prod.fst ∧
    (∀ changes ∈ children, ∀ change ∈ changes, change.isInfeasible = false) ∧
    kids.map Prod.snd = litter id node snapshot s.tree.nextSeq children ∧
    Ramified s id node payload snapshot kids kids s'

/-- The first empty domain has ended the creation of children. -/
def Halted (s : Session) (id : NodeId) (node : Node) (children : List (List BoundChange))
    (e : Error) (s' : Session) : Prop :=
  ∃ front before bad kids child payload snapshot, Breaks children front before bad ∧
    e = .invalid (.emptyDomain bad.var child.index) ∧
    kids.map Prod.snd = litter id node snapshot s.tree.nextSeq front ∧
    Ramified s id node payload snapshot (kids ++ [(child,
      .child id node snapshot (s.tree.nextSeq + kids.length) before)]) kids s'

/-- The children are created and the basis is released after that, be it with the last child or
with the first empty domain. -/
theorem Advanced.branches (advanced : Advanced s id node warm payload t)
    (settled : Settled s owed) (settledMid : Settled t owed) (roomy : s.lp.bases.table.Roomy)
    (snapshots : snapshot = (t.lp.bases.insert t.lp.basis).1)
    (taken : Settled { t with lp := t.lp.snapshotted } (owed + .ofBases {snapshot}))
    {children : List (List BoundChange)}
    (room : s.tree.nodes.sizeAfter children.length ≤ 0x100000000) (nonempty : children ≠ []) :
    (do
      let created ← Action.attempt (createChildren id snapshot children)
      lpPart.run (releaseBasis snapshot)
      Action.resume created).Ensures { t with lp := t.lp.snapshotted }
        (Whole s id node children) (Halted s id node children) := by
  have live := advanced.live settledMid roomy snapshots
  have roomMid : t.tree.nodes.sizeAfter (0 + children.length) ≤ 0x100000000 := by
    rw [advanced.nodes, SlotTable.sizeAfter_set, Nat.zero_add]
    exact room
  rw [ensures_bind, ensures_attempt]
  apply ((createChildren_breeds advanced.breeding advanced.inner advanced.tidy live children
    roomMid).and (createChildren_reaches taken advanced.shaped.sound id snapshot children)).imp
  · intro ids u done
    obtain ⟨⟨kids, rfl, feasible, records, breeding⟩, held, moves⟩ := done
    have records : kids.map Prod.snd = litter id node snapshot s.tree.nextSeq children :=
      advanced.nextSeq ▸ records
    have length := litter_length records
    have positive : 0 < kids.length := length ▸ List.length_pos_iff.2 nonempty
    apply (advanced.ends settledMid roomy snapshots settled breeding (litter_sprung records)
      positive (length ▸ room) held moves (.ok (kids.map Prod.fst))).imp
    · intro ids s' ended
      obtain ⟨same, ramified⟩ := ended
      cases same
      exact ⟨kids, _, snapshot, rfl, feasible, records, ramified⟩
    · intro _ _ ended
      cases ended.1
  · intro e u refused
    obtain ⟨⟨front, before, bad, kids, child, breaks, rfl, records, breeding⟩, held, moves⟩ :=
      refused
    rw [List.nil_append] at breeding
    have records : kids.map Prod.snd = litter id node snapshot s.tree.nextSeq front :=
      advanced.nextSeq ▸ records
    rw [show t.tree.nextSeq = s.tree.nextSeq from advanced.nextSeq] at breeding
    have sprung := (litter_sprung records).append child node (s.tree.nextSeq + kids.length) before
    have length : (kids ++ [(child, Node.child id node snapshot
        (s.tree.nextSeq + kids.length) before)]).length ≤ children.length := by
      rw [List.length_append, List.length_singleton, litter_length records]
      exact breaks.length_lt
    apply (advanced.ends settledMid roomy snapshots settled breeding sprung (by simp)
      (Nat.le_trans (SlotTable.sizeAfter_mono _ length) room) held moves (.error _)).imp
    · intro _ _ ended
      cases ended.1
    · intro e s' ended
      obtain ⟨same, ramified⟩ := ended
      cases same
      exact ⟨front, before, bad, kids, child, _, snapshot, breaks, rfl, records, ramified⟩

/-- A leaf that is the focus is promoted before its children are created. -/
theorem branch_ramifies (settled : Settled s owed) (shaped : s.desk.Shaped) (tidy : s.tree.Tidy)
    (roomy : s.lp.bases.table.Roomy) {children : List (List BoundChange)}
    (room : s.tree.nodes.sizeAfter children.length ≤ 0x100000000) (nonempty : children ≠ [])
    (found : s.tree.nodes.get? id = some node) (leaf : node.payload = .leaf warm added)
    (focus : s.tree.focus = some id) :
    (branch id children).Ensures s (Whole s id node children) (Halted s id node children) := by
  unfold branch
  rw [if_neg (by simpa using nonempty)]
  change (onTree (Tree.promote id) >>= _).Ensures s _ _
  rw [ensures_bind]
  apply (promote_advances settled shaped tidy found leaf focus).imp
  · intro _ t done
    obtain ⟨settledMid, payload, advanced⟩ := done
    rw [ensures_bind, ensures_emitIf, ensures_bind]
    have roomyMid : t.lp.bases.table.Roomy := advanced.still.slots.trans_lt roomy
    apply ((snapshotBasis_takes t).also (snapshotBasis_settled settledMid roomyMid)).imp
    · intro snapshot t' done
      obtain ⟨⟨snapshots, rfl⟩, taken, _⟩ := done
      exact advanced.branches settled settledMid roomy snapshots taken room nonempty
    · intro _ _ no
      exact no.elim
  · intro _ _ no
    exact no.elim

/-- Nothing is touched unless the node is a leaf and the focus. -/
theorem branch_unpromotable (settled : Settled s owed) (shaped : s.desk.Shaped)
    {children : List (List BoundChange)} (nonempty : children ≠ [])
    (bars : ¬(s.tree.focus = some id ∧ ∃ node, s.tree.getLeaf id = .ok node)) :
    (branch id children).Ensures s (fun _ _ => False)
      fun e s' => s' = s ∧ Tree.Unpromotable s.tree id e := by
  obtain ⟨_, inside, _⟩ := tree_frames.enter settled
  unfold branch
  rw [if_neg (by simpa using nonempty)]
  change (onTree (Tree.promote id) >>= _).Ensures s _ _
  rw [ensures_bind]
  apply ensures_run.2
  apply (Tree.promote_refused inside shaped id).imp
  · intro _ _ passes
    exact absurd passes bars
  · intro e t refused
    obtain ⟨rfl, why⟩ := refused
    exact ⟨rfl, why⟩

/-- A new node that is not among the queued ones is not in the queue. -/
theorem Ramified.unqueued {child : NodeId} {leaf : Node} {s' : Session} (tidy : s.tree.Tidy)
    (ramified : Ramified s id node payload snapshot (kids ++ [(child, leaf)]) kids s') :
    ∀ entry ∈ s'.tree.queue.leaves, entry.node ≠ child := by
  intro entry member
  obtain new | old := List.mem_append.1 (ramified.tree.queue.mem_iff.1 member)
  · obtain ⟨kid, here, rfl⟩ := List.mem_map.1 new
    have distinct := ramified.tree.distinct
    rw [List.map_append, List.nodup_append] at distinct
    exact distinct.2.2 _ (List.mem_map_of_mem here) _ (List.mem_singleton.2 rfl)
  · have stale := ramified.tree.fresh (child, leaf) (by simp)
    apply tidy.absent _ (List.mem_of_mem_filter old)
    unfold Tree.leafAt
    rw [stale]
    rfl

end Session

variable {ι : Type} [Fintype ι] [DecidableEq ι] [Inhabited ι] {rule : Rule ι} {w : World ι}

/-- Branching on a leaf that is the focus succeeds unless a domain is empty, as long as there are
numbers for the slots of its children. The leaf keeps its rows as an inner node and loses its warm
start, and its children share the current basis. -/
theorem branch_exact (reached : Reachable rule w) {id : NodeId} {node : Node}
    (leaf : w.session.tree.getLeaf id = .ok node) (focus : w.session.tree.focus = some id)
    {children : List (List BoundChange)} (nonempty : children ≠ [])
    (feasible : ∀ changes ∈ children, ∀ change ∈ changes, change.isInfeasible = false)
    (room : w.session.tree.nodes.sizeAfter children.length ≤ 0x100000000) :
    ∃ kids payload snapshot,
      (Session.branch id children w.session).result = .ok (kids.map Prod.fst) ∧
      kids.map Prod.snd =
        Session.litter id node snapshot w.session.tree.nextSeq children ∧
      w.session.Ramified id node payload snapshot kids kids
        (Session.branch id children w.session).state := by
  obtain ⟨_, settled, shaped, roomy⟩ := reached.session
  obtain ⟨found, warm, added, stored⟩ := Tree.getLeaf_ok.1 leaf
  have ramifies := Session.branch_ramifies settled shaped
    (reached.orderly default).1.tidy roomy.lp.bases room nonempty found stored focus
  cases ended : (Session.branch id children w.session).result with
  | ok ids =>
    obtain ⟨kids, payload, snapshot, rfl, _, records, ramified⟩ :=
      Action.ensures_of_ok ended ramifies
    exact ⟨kids, payload, snapshot, rfl, records, ramified⟩
  | error e =>
    obtain ⟨_, _, _, _, _, _, _, breaks, _⟩ := Action.ensures_of_error ended ramifies
    exact absurd feasible breaks.not_feasible

/-- A root with a row that is the focus. -/
def World.poised : World Unit :=
  World.initial.after [.client (.createRow ⟨"base", ⟨1, []⟩, 0, 1, false⟩),
    .client (.loadRow ⟨0, 0⟩), .session .start, .session .nextNode]

theorem World.poised_reachable : Reachable (fun _ _ => True) World.poised := by
  have plays : Plays (fun _ _ => True) World.initial
      [.client (.createRow ⟨"base", ⟨1, []⟩, 0, 1, false⟩), .client (.loadRow ⟨0, 0⟩),
        .session .start, .session .nextNode] := by
    decide +kernel
  exact plays.reachable

/-- The root in that world. -/
def World.poisedRoot : Node :=
  ⟨.leaf ⟨0, 0⟩ [⟨0, 0⟩], none, [], [], Double.negInfinity, 0, true, 0⟩

theorem branch_exact_poised :
    ∃ kids payload snapshot,
      (Session.branch ⟨0, 0⟩ [[⟨0, 0, 1, 0, 0⟩], [⟨0, 0, 1, 1, 1⟩]] World.poised.session).result =
        .ok (kids.map Prod.fst) ∧
      kids.map Prod.snd = Session.litter ⟨0, 0⟩ World.poisedRoot snapshot
        World.poised.session.tree.nextSeq [[⟨0, 0, 1, 0, 0⟩], [⟨0, 0, 1, 1, 1⟩]] ∧
      World.poised.session.Ramified ⟨0, 0⟩ World.poisedRoot payload snapshot kids kids
        (Session.branch ⟨0, 0⟩ [[⟨0, 0, 1, 0, 0⟩], [⟨0, 0, 1, 1, 1⟩]] World.poised.session).state :=
  branch_exact World.poised_reachable (by decide +kernel) (by decide +kernel) (by decide +kernel)
    (by decide +kernel) (by decide +kernel)

/-- A refused branching leaves the session as it was, or a domain is empty. In that case the leaf
has been promoted and the children before it have been queued, and the child with that domain is
there but not queued. -/
theorem branch_refused (reached : Reachable rule w) {id : NodeId}
    {children : List (List BoundChange)} {e : Error}
    (ended : (Session.branch id children w.session).result = .error e)
    (room : w.session.tree.nodes.sizeAfter children.length ≤ 0x100000000) :
    (Session.branch id children w.session).state = w.session ∧
      (children = [] ∧ e = .invalid (.noChildren id.index) ∨
        children ≠ [] ∧ Tree.Unpromotable w.session.tree id e) ∨
    ∃ node front before bad kids child payload snapshot,
      w.session.tree.getLeaf id = .ok node ∧ w.session.tree.focus = some id ∧
      Session.Breaks children front before bad ∧
      e = .invalid (.emptyDomain bad.var child.index) ∧
      kids.map Prod.snd = Session.litter id node snapshot w.session.tree.nextSeq front ∧
      w.session.Ramified id node payload snapshot (kids ++ [(child,
        .child id node snapshot (w.session.tree.nextSeq + kids.length) before)]) kids
        (Session.branch id children w.session).state ∧
      ∀ entry ∈ (Session.branch id children w.session).state.tree.queue.leaves,
        entry.node ≠ child := by
  obtain ⟨_, settled, shaped, roomy⟩ := reached.session
  have tidy : w.session.tree.Tidy := (reached.orderly default).1.tidy
  by_cases empty : children = []
  · subst empty
    cases ended
    exact .inl ⟨rfl, .inl ⟨rfl, rfl⟩⟩
  · by_cases passes : w.session.tree.focus = some id ∧
        ∃ node, w.session.tree.getLeaf id = .ok node
    · obtain ⟨focus, node, leaf⟩ := passes
      obtain ⟨found, warm, added, stored⟩ := Tree.getLeaf_ok.1 leaf
      have ramifies := Session.branch_ramifies settled shaped tidy
        roomy.lp.bases room empty found stored focus
      obtain ⟨front, before, bad, kids, child, payload, snapshot, breaks, name, records,
        ramified⟩ := Action.ensures_of_error ended ramifies
      exact .inr ⟨node, front, before, bad, kids, child, payload, snapshot, leaf, focus, breaks,
        name, records, ramified, ramified.unqueued tidy⟩
    · have rejects := Session.branch_unpromotable settled shaped empty passes
      obtain ⟨same, why⟩ := Action.ensures_of_error ended rejects
      exact .inl ⟨same, .inr ⟨empty, why⟩⟩

/-- The second child has an empty domain. -/
theorem branch_refused_poised :
    (Session.branch ⟨0, 0⟩ [[⟨0, 0, 1, 0, 0⟩], [⟨0, 0, 1, 2, 1⟩]] World.poised.session).result =
      .error (.invalid (.emptyDomain 0 2)) ∧
    ∃ kids child leaf payload snapshot,
      World.poised.session.Ramified ⟨0, 0⟩ World.poisedRoot payload snapshot
        (kids ++ [(child, leaf)]) kids
        (Session.branch ⟨0, 0⟩ [[⟨0, 0, 1, 0, 0⟩], [⟨0, 0, 1, 2, 1⟩]] World.poised.session).state ∧
      ∀ entry ∈ (Session.branch ⟨0, 0⟩ [[⟨0, 0, 1, 0, 0⟩], [⟨0, 0, 1, 2, 1⟩]]
        World.poised.session).state.tree.queue.leaves, entry.node ≠ child := by
  have ended : (Session.branch ⟨0, 0⟩ [[⟨0, 0, 1, 0, 0⟩], [⟨0, 0, 1, 2, 1⟩]]
      World.poised.session).result = .error (.invalid (.emptyDomain 0 2)) := by
    decide +kernel
  have root : World.poised.session.tree.getLeaf ⟨0, 0⟩ = .ok World.poisedRoot := by
    decide +kernel
  have empty : World.poised.session.tree.queue.leaves = [] := by
    decide +kernel
  have queued : (Session.branch ⟨0, 0⟩ [[⟨0, 0, 1, 0, 0⟩], [⟨0, 0, 1, 2, 1⟩]]
      World.poised.session).state.tree.queue.leaves ≠ [] := by
    decide +kernel
  refine ⟨ended, ?_⟩
  obtain ⟨same, _⟩ | ⟨node, front, before, bad, kids, child, payload, snapshot, leaf, _, _, _, _,
    ramified, unqueued⟩ := branch_refused World.poised_reachable ended (by decide +kernel)
  · rw [same] at queued
    exact absurd empty queued
  · cases root.symm.trans leaf
    exact ⟨kids, child, _, payload, snapshot, ramified, unqueued⟩

/-- The root is promoted, the first child is queued, and the second one is lost. -/
theorem branch_refused_promotes :
    let s := World.poised.session
    let ended := Session.branch ⟨0, 0⟩ [[⟨0, 0, 1, 0, 0⟩], [⟨0, 0, 1, 2, 1⟩]] s
    Reachable (fun _ _ => True) World.poised ∧
      ended.result = .error (.invalid (.emptyDomain 0 2)) ∧
      s.tree.getLeaf ⟨0, 0⟩ = .ok World.poisedRoot ∧ s.tree.queue.leaves = [] ∧
      ended.state.tree.nodes.get? ⟨0, 0⟩ =
        some { World.poisedRoot with payload := .fork [⟨0, 0⟩] 2 } ∧
      ended.state.tree.queue.leaves.map QueuedLeaf.node = [⟨1, 0⟩] ∧
      (ended.state.tree.nodes.get? ⟨2, 0⟩).map Node.kind = some .leaf :=
  ⟨World.poised_reachable, by decide +kernel, by decide +kernel, by decide +kernel,
    by decide +kernel, by decide +kernel, by decide +kernel⟩

end BranchCutPrice
