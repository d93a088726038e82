import BranchCutPrice.Proofs.Brood

/-!
Promoting a solved leaf. A live leaf that is the focus is promoted in any case: it leaves the
queue, its warm start loses one user, and it keeps its rows. Any other node is refused.
-/

namespace BranchCutPrice

namespace Tree

open BranchCutPrice.Action Relaxation

variable {s s' : Linked Tree} {owed : Holdings} {id : NodeId} {node : Node} {warm : BasisId}
  {added : List RowId}

/-- What becomes of the rest of a tree, and of its warm start, when a leaf is promoted. -/
structure Passed (s s' : Linked Tree) (id : NodeId) (warm : BasisId) : Prop where
  queue : s'.own.queue = s.own.queue.erase id
  rest : s'.own = { s.own with
    nodes := s'.own.nodes
    queue := s'.own.queue
    stats := s'.own.stats }
  released : ∃ freed, s.lp.bases.release warm = .ok (freed, s'.lp.bases)

theorem leafToFork_passes (settled : Settled s owed) (found : s.own.nodes.get? id = some node)
    (leaf : node.payload = .leaf warm added) :
    (leafToFork id).Completes s fun _ s' => Passed s s' id warm := by
  unfold leafToFork
  apply Completes.of_read (a := node)
  · exact node_ok.2 found
  rw [leaf]
  dsimp only
  rw [Completes, ensures_bind, ensures_onOwn, ensures_modify, ensures_bind, ensures_onLp]
  have held : warm ∈ (owed + nodeHoldings s.own.nodes).bases := by
    rw [Holdings.bases_add]
    apply Multiset.mem_add.2
    exact .inr (mem_nodeHoldings_bases found (by rw [leaf]; rfl))
  have balanced : s.lp.bases.Balanced (owed + nodeHoldings s.own.nodes).bases := settled.bases
  obtain ⟨others, split⟩ := Multiset.exists_cons_of_mem held
  rw [split] at balanced
  obtain ⟨freed, bases, released, _⟩ := balanced.release
  apply ensures_change.2
  rw [released]
  refine ⟨fun lp' same => ?_, fun e refused => ?_⟩
  · cases same
    rw [ensures_emit]
    exact ⟨rfl, rfl, freed, released⟩
  · cases refused

/-- No basis differs. -/
def SameBases (lp lp' : Relaxation) : Prop :=
  lp'.bases = lp.bases

instance : Std.Refl SameBases where
  refl _ := rfl

instance : IsTrans Relaxation SameBases where
  trans _ _ _ first second := Eq.trans second first

/-- A conversion to a subroot changes neither the queue nor any basis. -/
def Exchanged (s s' : Linked Tree) : Prop :=
  s'.own = { s.own with nodes := s'.own.nodes, stats := s'.own.stats } ∧
    s'.lp.bases = s.lp.bases

instance : Std.Refl Exchanged where
  refl _ := ⟨rfl, rfl⟩

instance : IsTrans (Linked Tree) Exchanged where
  trans _ _ _ first second := by
    refine ⟨?_, second.2.trans first.2⟩
    rw [second.1, first.1]

theorem forkToSubroot_exchanges (id : NodeId) : (forkToSubroot id).Respects Exchanged := by
  have rows (act : RowId → Action Relaxation Unit) (each : ∀ row, (act row).Respects SameBases)
      (items : List RowId) : (onLp (items.forM act)).Respects Exchanged :=
    (Respects.forM each items).run fun _ _ same => ⟨rfl, same⟩
  have captures := rows captureRow fun _ =>
    respects_change fun _ _ changed => related_of_bind changed fun _ => rfl
  have releases := rows releaseRow fun _ =>
    respects_change fun _ _ changed => related_of_bind changed fun _ => rfl
  unfold forkToSubroot
  apply (respects_read _).bind
  intro node
  split
  · apply (respects_read _).bind
    intro _
    apply respects_get.bind
    intro s
    apply (captures _).bind
    intro _
    apply Respects.bind
    · intro t
      rw [Reaches, ensures_onOwn, ensures_modify]
      exact ⟨rfl, rfl⟩
    · intro _
      exact (releases _).bind fun _ => respects_emit _
  · exact respects_throw _

/-- Nothing stands in the way of the promotion of a leaf that is the focus. -/
theorem promote_passes (settled : Settled s owed) (shaped : s.desk.Shaped)
    (found : s.own.nodes.get? id = some node) (leaf : node.payload = .leaf warm added)
    (focus : s.own.focus = some id) :
    (promote id).Completes s fun _ s' => Passed s s' id warm := by
  obtain ⟨expected, extended⟩ : ∃ rows, s.own.extendedRows node = .ok rows := by
    unfold extendedRows
    cases parent : node.parent with
    | none => exact ⟨_, rfl⟩
    | some above =>
      obtain ⟨upper, foundUpper, _⟩ := shaped.parent id node above found parent
      obtain ⟨rows, listed, _⟩ := lpRows_live shaped foundUpper
      simp only [listed]
      exact ⟨_, rfl⟩
  unfold promote
  apply Completes.of_read (a := node)
  · exact getLeaf_ok.2 ⟨found, warm, added, leaf⟩
  apply Completes.of_read (a := ())
  · exact if_pos focus
  apply Completes.of_read (a := expected)
  · exact extended
  rw [Completes, ensures_bind, ensures_get]
  dsimp only
  rw [ensures_bind]
  apply ((leafToFork_passes settled found leaf).also (leafToFork_ensures settled id)).imp
  · intro _ middle done
    obtain ⟨passed, node', warm', added', found', leaf', forked⟩ := done
    cases found.symm.trans found'
    cases leaf.symm.trans leaf'
    have moves := Moves.one (forked.move found leaf (.inl rfl)) (Set.mem_singleton Deed.solve)
    have shaped' : (middle.own.desk middle.lp.loadedRows).Shaped :=
      moves.shaped_of_shrinking (by simp) shaped
    have foundFork := forked.found found
    obtain ⟨⟨chain, delta⟩, counted⟩ := deltaChain_live shaped' foundFork
    apply Completes.of_read (a := (chain, delta))
    · exact counted
    dsimp only
    rw [Completes, ensures_bind, ensures_get]
    split
    · rw [ensures_bind]
      apply ((forkToSubroot_ensures forked.settled id).and (forkToSubroot_exchanges id middle)).imp
      · intro _ s' done
        obtain ⟨_, own, bases⟩ := done
        obtain ⟨freed, released⟩ := passed.released
        change Passed s s' id warm
        refine ⟨?_, ?_, freed, bases ▸ released⟩
        · rw [own]
          exact passed.queue
        · rw [own, passed.rest]
      · intro _ _ refused
        have focused : middle.own.focus = some id := (congrArg Desk.focus forked.desk).trans focus
        exact refused.1.2 _ _ _ foundFork rfl focused
    · exact passed
  · intro _ _ no
    exact no

/-- Why a node is not promoted. -/
def Unpromotable (tree : Tree) (id : NodeId) (e : Error) : Prop :=
  tree.getLeaf id = .error e ∨
    ∃ node, tree.getLeaf id = .ok node ∧ tree.focus ≠ some id ∧ e = .invalid (.notFocus id.index)

theorem promote_refused (settled : Settled s owed) (shaped : s.desk.Shaped) (id : NodeId) :
    (promote id).Ensures s (fun _ _ => s.own.focus = some id ∧ ∃ node, s.own.getLeaf id = .ok node)
      (fun e s' => s' = s ∧ Unpromotable s.own id e) := by
  cases got : s.own.getLeaf id with
  | error e =>
    unfold promote
    rw [ensures_bind]
    apply ensures_read.2
    rw [got]
    refine ⟨nofun, fun e' same => ?_⟩
    cases same
    exact ⟨rfl, .inl got⟩
  | ok node =>
    obtain ⟨found, warm, added, leaf⟩ := getLeaf_ok.1 got
    by_cases focus : s.own.focus = some id
    · apply (promote_passes settled shaped found leaf focus).imp
      · intro _ _ _
        exact ⟨focus, node, rfl⟩
      · intro _ _ no
        exact no.elim
    · unfold promote
      rw [ensures_bind]
      apply ensures_read.2
      refine ⟨fun _ _ => ?_, fun e refused => ?_⟩
      · rw [ensures_bind]
        apply ensures_read.2
        unfold requireFocus
        rw [if_neg focus]
        refine ⟨nofun, fun e refused => ?_⟩
        cases refused
        exact ⟨rfl, .inr ⟨node, got, focus, rfl⟩⟩
      · rw [got] at refused
        cases refused

end Tree

namespace Session

open BranchCutPrice.Action Relaxation

variable {s : Session} {owed : Holdings} {id : NodeId} {node : Node} {warm : BasisId}
  {added : List RowId}

/-- A session in which a leaf has been promoted. -/
structure Advanced (s : Session) (id : NodeId) (node : Node) (warm : BasisId) (payload : Payload)
    (s' : Session) : Prop where
  found : s.tree.nodes.get? id = some node
  start : node.payload.basis? = some warm
  kind : payload = .fork node.payload.added 0 ∨ payload = .subroot s.lp.loadedRows 0
  shaped : s'.desk.Shaped
  tidy : s'.tree.Tidy
  nodes : s'.tree.nodes = s.tree.nodes.set id { node with payload := payload }
  passed : Tree.Passed ⟨s.tree, s.lp⟩ ⟨s'.tree, s'.lp⟩ id warm
  replays : Replays s'.tree.nodes id s.lp.loadedRows
  still : Still s.lp s'.lp
  rest : s' = { s with tree := s'.tree, lp := s'.lp }

theorem promote_advances (settled : Settled s owed) (shaped : s.desk.Shaped) (tidy : s.tree.Tidy)
    (found : s.tree.nodes.get? id = some node) (leaf : node.payload = .leaf warm added)
    (focus : s.tree.focus = some id) :
    (onTree (Tree.promote id)).Completes s fun _ s' =>
      Settled s' owed ∧ ∃ payload, Advanced s id node warm payload s' := by
  have promotes (owed : Holdings) (inside : Settled (Linked.mk s.tree s.lp) owed) :
      (Tree.promote id).Ensures (Linked.mk s.tree s.lp)
        (fun _ t => Settled t owed ∧ Tree.Passed ⟨s.tree, s.lp⟩ t id warm ∧
          Tree.Promoted ⟨s.tree, s.lp⟩ t id ∧ Tree.Sheds [id] [id] s.tree t.own)
        (fun _ t => Settled t owed ∧ False) := by
    have passes := Tree.promote_passes inside shaped found leaf focus
    apply ((passes.also (Tree.promote_converts inside shaped id)).also
      (Tree.promote_sheds ⟨s.tree, s.lp⟩ id)).imp
    · intro _ t done
      obtain ⟨⟨passed, settled', promoted⟩, sheds⟩ := done
      exact ⟨settled', passed, promoted, sheds⟩
    · intro _ _ no
      exact no.elim
  apply (tree_frames.ensures settled promotes).imp
  · intro _ s' done
    obtain ⟨settled', t, rfl, passed, promoted, sheds⟩ := done
    have moves := Moves.one promoted.move (Set.mem_singleton Deed.solve)
    have shaped' : t.desk.Shaped := moves.shaped_of_shrinking (by simp) shaped
    obtain ⟨payload, kind, nodes⟩ : ∃ payload, (payload = .fork node.payload.added 0 ∨
        payload = .subroot s.lp.loadedRows 0) ∧
        t.own.nodes = s.tree.nodes.set id { node with payload := payload } := by
      cases promoted with
      | subroot found' _ _ converted =>
        cases found.symm.trans found'
        exact ⟨_, .inr rfl, converted.nodes⟩
      | fork found' leaf' converted =>
        cases found.symm.trans found'
        exact ⟨_, .inl (by rw [leaf']; rfl), converted.nodes⟩
    have start : node.payload.basis? = some warm := by
      rw [leaf]
      rfl
    exact ⟨settled', payload, found, start, kind, shaped',
      sheds.tidy (fun _ member => member) tidy, nodes, passed, promoted.solved.2, promoted.still,
      rfl⟩
  · intro _ _ no
    obtain ⟨_, _, _, no⟩ := no
    exact no

end Session

end BranchCutPrice
