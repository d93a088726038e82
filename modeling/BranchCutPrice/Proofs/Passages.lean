import BranchCutPrice.Proofs.Turnover

/-!
What a call on a session may do to a leaf of its tree: create it, branch on it, finish it, cut
it off or hand it out. A passage says of a successful call that leaves come and go in these
ways only, and that they join and leave the queue as the ways say.
-/

namespace BranchCutPrice

open BranchCutPrice.Action BranchCutPrice.Tree

namespace SessionCall

/-! ### Ways -/

/-- The calls that create leaves. -/
def Creates : SessionCall → Prop
  | start | branch _ _ => True
  | _ => False

def Branches (id : NodeId) : SessionCall → Prop
  | branch other _ => other = id
  | _ => False

def Finishes (id : NodeId) : SessionCall → Prop
  | finishNode other => other = id
  | _ => False

/-- A call names a leaf to close it. -/
def Closes (id : NodeId) (call : SessionCall) : Prop :=
  call.Branches id ∨ call.Finishes id

/-- The calls that compare leaves with the cutoff. -/
def Prunes : SessionCall → Prop
  | nextNode | reportSolution _ _ => True
  | _ => False

/-- A search is given a leaf to work on. -/
def HandsOut (s : Session) (id : NodeId) : SessionCall → Prop
  | nextNode => (Session.nextNode s).result = .ok (some id)
  | _ => False

instance : (call : SessionCall) → Decidable (call = clear)
  | clear => isTrue rfl
  | start | nextNode | installSolution _ _ _ _ | installFarkas _ | addCut _ _ | separationRound _
  | addPricedColumn _ _ _ | pricingRound _ | branch _ _ | finishNode _ | reportSolution _ _
  | updateIncumbent _ _ | reportProgress => isFalse nofun

variable {s : Session} {call : SessionCall} {id : NodeId}

/-- The calls that neither name a leaf to close it nor hand one out. -/
def Spares : SessionCall → Prop
  | nextNode | branch _ _ | finishNode _ => False
  | _ => True

theorem Spares.not_closes (spares : call.Spares) : ¬call.Closes id := by
  cases call with
  | nextNode | branch | finishNode => exact spares.elim
  | _ => exact fun named => named.elim False.elim False.elim

theorem Spares.not_handsOut (spares : call.Spares) : ¬call.HandsOut s id := by
  cases call with
  | nextNode => exact spares.elim
  | _ => exact fun hands => hands

theorem HandsOut.not_creates (hands : call.HandsOut s id) : ¬call.Creates := by
  cases call with
  | nextNode => exact not_false
  | _ => exact hands.elim

/-! ### Passages -/

/-- What a successful call may do to leaves. -/
structure Passage (call : SessionCall) (s s' : Session) : Prop where
  tidy : s'.tree.Tidy
  nextSeq : s.tree.nextSeq ≤ s'.tree.nextSeq
  incumbent : s.incumbent.Lowers s'.incumbent
  born : ∀ leaf, s'.tree.Stands leaf → s.tree.Stands leaf ∨
    call.Creates ∧ s.tree.nextSeq ≤ leaf.seq ∧ s'.tree.Queues leaf
  closed : ∀ leaf, s.tree.Stands leaf → call.Closes leaf.id → ¬s'.tree.Stands leaf
  /-- Leaves that are not closed by their name are cut off while they are queued. -/
  gone : ∀ leaf bound, s.tree.leafAt leaf.id = some (leaf.seq, bound) → ¬s'.tree.Stands leaf →
    call.Closes leaf.id ∨ call.Prunes ∧ s.tree.Queues leaf ∧
      s'.incumbent.cutoff - Double.boundSlack ≤ bound
  waits : ∀ leaf, s.tree.Stands leaf → s'.tree.Queues leaf → s.tree.Queues leaf
  taken : ∀ leaf, s.tree.Queues leaf → s'.tree.Stands leaf →
    s'.tree.Queues leaf ∨ call.HandsOut s leaf.id
  handed : ∀ leaf, call.HandsOut s leaf.id → s'.tree.Stands leaf → ¬s'.tree.Queues leaf

/-- First some leaves are closed or handed out, then others may be created. -/
theorem Passage.of_sheds {s' : Session} {closed out : List NodeId} {tree : Tree}
    (tidy : s.tree.Tidy) (sheds : Sheds closed out s.tree tree)
    (gains : Gains call.Creates tree s'.tree)
    (incumbent : s.incumbent.Lowers s'.incumbent)
    (closes : ∀ id, call.Closes id → id ∈ closed)
    (reason : ∀ id ∈ closed,
      call.Closes id ∨ call.Prunes ∧ s.tree.Exceeds s'.incumbent.cutoff id)
    (leaves : ∀ id, id ∈ out ↔ id ∈ closed ∨ call.HandsOut s id) : call.Passage s s' := by
  have nextSeq : s.tree.nextSeq ≤ s'.tree.nextSeq := sheds.nextSeq ▸ gains.nextSeq
  have stays {leaf : Leaf} (stands : s.tree.Stands leaf) (opens : leaf.id ∉ closed) :
      tree.Stands leaf := by
    obtain ⟨bound, there⟩ := stands
    refine ⟨bound, ?_⟩
    rw [sheds.leaves, if_neg opens]
    exact there
  have stood {leaf : Leaf} (stands : tree.Stands leaf) :
      s.tree.Stands leaf ∧ leaf.id ∉ closed := by
    obtain ⟨bound, there⟩ := stands
    rw [sheds.leaves] at there
    split at there
    · cases there
    · rename_i opens
      exact ⟨⟨bound, there⟩, opens⟩
  -- a leaf that was there before is not one of those created
  have old {leaf : Leaf} (stands : s.tree.Stands leaf) (now : s'.tree.Stands leaf) :
      tree.Stands leaf := by
    obtain before | ⟨_, new, _⟩ := gains.born leaf now
    · exact before
    · have earlier := tidy.seq_lt stands
      rw [sheds.nextSeq] at new
      omega
  refine ⟨gains.tidy, nextSeq, incumbent, ?_, ?_, ?_, ?_, ?_, ?_⟩
  · intro leaf now
    obtain before | new := gains.born leaf now
    · exact .inl (stood before).1
    · rw [sheds.nextSeq] at new
      exact .inr new
  · intro leaf stands named now
    exact (stood (old stands now)).2 (closes leaf.id named)
  · intro leaf bound there lost
    have member : leaf.id ∈ closed := by
      by_contra opens
      exact lost (gains.stays leaf (stays ⟨bound, there⟩ opens))
    obtain named | ⟨prunes, entry, queued, same, reaches⟩ := reason leaf.id member
    · exact .inl named
    · have agrees := tidy.queued entry queued
      rw [same, there, Option.some.injEq, Prod.mk.injEq] at agrees
      rw [← agrees.2] at reaches
      exact .inr ⟨prunes, tidy.queues ⟨bound, there⟩ queued same, reaches⟩
  · intro leaf stands queues
    obtain ⟨entry, member, same⟩ :=
      gains.waits leaf (old stands (gains.tidy.stands queues)) queues
    exact ⟨entry, (sheds.mem_queue.1 member).1, same⟩
  · intro leaf queues now
    by_cases out : leaf.id ∈ out
    · obtain closed | hands := (leaves leaf.id).1 out
      · exact absurd closed (stood (old (tidy.stands queues) now)).2
      · exact .inr hands
    · obtain ⟨entry, member, same⟩ := queues
      have remains : entry ∈ tree.queue.leaves :=
        sheds.mem_queue.2 ⟨member, fun taken => out (same.1 ▸ taken)⟩
      exact .inl (gains.queued leaf ⟨entry, remains, same⟩)
  · intro leaf hands now queues
    have before : tree.Stands leaf := by
      obtain before | ⟨creates, _⟩ := gains.born leaf now
      · exact before
      · exact absurd creates hands.not_creates
    obtain ⟨entry, member, same⟩ := gains.waits leaf before queues
    apply (sheds.mem_queue.1 member).2
    rw [same.1]
    exact (leaves leaf.id).2 (.inr hands)

/-- Some leaves are closed, and that is all. -/
theorem Passage.of_closed {s' : Session} {closed : List NodeId} (tidy : s.tree.Tidy)
    (sheds : Sheds closed closed s.tree s'.tree) (incumbent : s.incumbent.Lowers s'.incumbent)
    (closes : ∀ id, call.Closes id → id ∈ closed)
    (reason : ∀ id ∈ closed,
      call.Closes id ∨ call.Prunes ∧ s.tree.Exceeds s'.incumbent.cutoff id)
    (hands : ∀ id, ¬call.HandsOut s id) : call.Passage s s' := by
  have tidy' := sheds.tidy (List.Subset.refl _) tidy
  refine .of_sheds tidy sheds (.rfl tidy') incumbent closes reason fun id => ?_
  simp only [hands id, or_false]

/-- No leaf is closed or handed out. -/
theorem Passage.of_gains {s' : Session} (tidy : s.tree.Tidy)
    (gains : Gains call.Creates s.tree s'.tree)
    (incumbent : s.incumbent.Lowers s'.incumbent)
    (spares : call.Spares) : call.Passage s s' := by
  refine .of_sheds tidy .rfl gains incumbent (fun _ named => absurd named spares.not_closes)
    nofun ?_
  intro id
  simp only [List.not_mem_nil, false_or, false_iff]
  exact spares.not_handsOut

/-- Nothing happens to any leaf. -/
theorem Passage.of_idle {s' : Session} (tidy : s.tree.Tidy) (idle : Session.Idle s s')
    (spares : call.Spares) : call.Passage s s' := by
  obtain ⟨tree, incumbent⟩ := idle
  have gains : Gains call.Creates s.tree s'.tree := by
    rw [tree]
    exact .rfl tidy
  exact .of_gains tidy gains (.inl (by rw [incumbent])) spares

/-- Every call but a clearing is a passage if it succeeds and slots are left. -/
theorem passage (call : SessionCall) (running : call ≠ .clear) (tidy : s.tree.Tidy)
    (sound : s.tree.nodes.Sound) :
    call.perform.Yields s fun _ s' => s'.tree.nodes.Fits → call.Passage s s' := by
  have idle (call : SessionCall) {act : Action Session Unit} (spares : call.Spares)
      (idle : act.Yields s fun _ => Session.Idle s) :
      act.Yields s fun _ s' => s'.tree.nodes.Fits → call.Passage s s' := by
    apply idle.yields
    intro _ s' idle _
    exact .of_idle tidy idle spares
  cases call with
  | start =>
    apply discard_ensures.2
    apply Session.start_gains.yields
    intro _ s' done fits
    obtain ⟨created, incumbent⟩ := done
    exact .of_gains tidy (created.fits sound fits tidy) (.inl (by rw [incumbent])) trivial
  | nextNode =>
    apply discard_ensures.2
    apply ((Session.nextNode_advances tidy).and (ensures_ran _ s)).yields
    intro next s' done _
    obtain ⟨⟨pruned, incumbent, sheds, cut, _⟩, ran, _⟩ := done
    have tidy' := sheds.tidy (List.subset_append_left _ _) tidy
    refine .of_sheds tidy sheds (.rfl tidy') (.inl (by rw [incumbent]))
      (fun _ named => named.elim False.elim False.elim) ?_ ?_
    · intro id member
      rw [incumbent]
      exact .inr ⟨trivial, cut id member⟩
    · intro id
      have given : HandsOut s id nextNode ↔ next = some id := by
        change (Session.nextNode s).result = _ ↔ _
        rw [ran, Except.ok.injEq]
      rw [given, List.mem_append, Option.mem_toList]
  | installSolution id primal duals objective =>
    apply discard_ensures.2
    apply (Session.installSolution_gains tidy id primal duals objective).yields
    intro _ s' done _
    obtain ⟨gains, incumbent⟩ := done
    exact .of_gains tidy gains (.inl (by rw [incumbent])) trivial
  | installFarkas proof =>
    exact idle (.installFarkas proof) trivial
      (discard_ensures.2 (Session.installFarkas_idle proof))
  | addCut row forced => exact idle (.addCut row forced) trivial (Session.addCut_idle row forced)
  | separationRound id =>
    apply discard_ensures.2
    apply (Session.separationRound_sheds id).yields
    intro _ s' done _
    obtain ⟨sheds, incumbent⟩ := done
    exact .of_closed tidy sheds (.inl (by rw [incumbent]))
      (fun _ named => named.elim False.elim False.elim) nofun (fun _ hands => hands)
  | addPricedColumn column reducedCost forced =>
    exact idle (.addPricedColumn column reducedCost forced) trivial
      (Session.addPricedColumn_idle column reducedCost forced)
  | pricingRound mode =>
    exact idle (.pricingRound mode) trivial (discard_ensures.2 (Session.pricingRound_idle mode))
  | branch id children =>
    apply discard_ensures.2
    apply (Session.branch_gains id children).yields
    intro _ s' done fits
    obtain ⟨incumbent, tree, sheds, created⟩ := done
    have tidy' := sheds.tidy (List.Subset.refl _) tidy
    refine .of_sheds tidy sheds (created.fits (sheds.sound sound) fits tidy')
      (.inl (by rw [incumbent])) ?_ ?_ ?_
    · intro other named
      exact List.mem_singleton.2 (named.elim Eq.symm False.elim)
    · intro other member
      exact .inl (.inl (List.mem_singleton.1 member).symm)
    · intro other
      simp [HandsOut]
  | finishNode id =>
    apply (Session.finishNode_sheds tidy id).yields
    intro _ s' done _
    obtain ⟨sheds, incumbent⟩ := done
    refine .of_closed tidy sheds (.inl (by rw [incumbent])) ?_ ?_ (fun _ hands => hands)
    · intro other named
      exact List.mem_singleton.2 (named.elim False.elim Eq.symm)
    · intro other member
      exact .inl (.inr (List.mem_singleton.1 member).symm)
  | reportSolution solution objective =>
    apply discard_ensures.2
    apply (Session.reportSolution_sheds tidy solution objective).yields
    intro _ s' done _
    obtain ⟨lowers, pruned, sheds, cut⟩ := done
    exact .of_closed tidy sheds lowers (fun _ named => named.elim False.elim False.elim)
      (fun id member => .inr ⟨trivial, cut id member⟩) (fun _ hands => hands)
  | updateIncumbent solution objective =>
    apply discard_ensures.2
    apply ensures_run.2
    apply (Session.update_lowers s.incumbent solution objective).yields
    intro _ incumbent' taken _
    exact .of_gains tidy (.rfl tidy) taken.1 trivial
  | reportProgress => exact idle .reportProgress trivial Session.reportProgress_idle
  | clear => exact absurd rfl running

end SessionCall

end BranchCutPrice
