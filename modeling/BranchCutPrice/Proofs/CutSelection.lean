import BranchCutPrice.Proofs.Admission
import BranchCutPrice.Proofs.Offers
import BranchCutPrice.Proofs.Switching

/-!
What a separation round selects. The forced cuts that are not loaded are added first, then as many
of the other ones as there are places for, the most efficacious ones first and equally efficacious
ones in the order in which they were handed in. Loaded cuts take no place.
-/

namespace BranchCutPrice

open BranchCutPrice.Action

/-- The most efficacious cuts first; equally efficacious ones stay in order. -/
def StoredCut.ranked (cuts : List StoredCut) : List StoredCut :=
  cuts.mergeSort fun a b => Double.rank b.efficacy ≤ Double.rank a.efficacy

namespace SeparationRound

/-- The rows that a round adds beside some loaded ones. -/
def selection (round : SeparationRound) (loaded : List RowId) (limit : Nat) : List RowId :=
  let fresh := round.cuts.filter (!loaded.contains ·.row)
  (StoredCut.ranked (fresh.filter (·.forced)) ++
    (StoredCut.ranked (fresh.filter (!·.forced))).take limit).map StoredCut.row

end SeparationRound

/-! ### The order of the cuts -/

/-- Cuts that are forced alike are sorted by their efficacies. -/
theorem StoredCut.sort_alike {cuts : List StoredCut} {forced : Bool}
    (alike : ∀ cut ∈ cuts, cut.forced = forced) :
    Ranking.sort StoredCut.before cuts = ranked cuts := by
  let ahead (a b : StoredCut) : Bool := Double.rank b.efficacy < Double.rank a.efficacy
  have weak : Ranking.Weak ahead :=
    .of_rank fun cut : StoredCut => Double.rank cut.efficacy
  have same : Ranking.sort StoredCut.before cuts = Ranking.sort ahead cuts := by
    apply Ranking.sort_congr
    intro a member b other
    simp [before, ahead, alike a member, alike b other]
  rw [same, Ranking.sort_eq_mergeSort weak]
  unfold ranked
  congr 1
  funext a b
  simp only [ahead, ← decide_not, not_lt]

namespace SeparationRound

/-- Where forced cuts come first, all of them are picked, then as many others as fit. -/
theorem picks_eq {limit optional : Nat} {loaded : List RowId} {cuts : List StoredCut}
    (sorted : cuts.Pairwise fun a b => b.forced = true → a.forced = true)
    (distinct : (cuts.map StoredCut.row).Nodup) :
    picks limit loaded optional cuts =
      ((cuts.filter (·.row ∉ loaded)).filter (·.forced) ++
        ((cuts.filter (·.row ∉ loaded)).filter (!·.forced)).take (limit - optional)).map
          StoredCut.row := by
  induction cuts generalizing loaded optional with
  | nil => simp [picks]
  | cons cut rest ih =>
    obtain ⟨ahead, sorted'⟩ := List.pairwise_cons.1 sorted
    obtain ⟨absent, distinct'⟩ := List.nodup_cons.1 distinct
    -- a cut that is picked is not among the others
    have apart : rest.filter (·.row ∉ loaded ++ [cut.row]) = rest.filter (·.row ∉ loaded) := by
      apply List.filter_congr
      intro other member
      have different : other.row ≠ cut.row := fun same =>
        absent (same ▸ List.mem_map_of_mem member)
      simp [different]
    have none (optional : cut.forced = false) :
        (rest.filter (·.row ∉ loaded)).filter (·.forced) = [] := by
      refine List.filter_eq_nil_iff.2 fun other member forced => ?_
      rw [ahead other (List.mem_of_mem_filter member) forced] at optional
      cases optional
    unfold picks
    cases forced : cut.forced with
    | true =>
      rw [if_neg (by simp)]
      by_cases here : cut.row ∈ loaded
      · rw [if_pos here, ih sorted' distinct', List.filter_cons_of_neg (by simpa using here)]
      · rw [if_neg here, ih sorted' distinct', apart, if_pos rfl,
          List.filter_cons_of_pos (by simpa using here), List.filter_cons_of_pos forced,
          List.filter_cons_of_neg (by simp [forced])]
        rfl
    | false =>
      by_cases full : limit ≤ optional
      · rw [if_pos (by simp [full]), Nat.sub_eq_zero_of_le full, List.take_zero,
          List.append_nil]
        symm
        rw [List.map_eq_nil_iff, List.filter_filter, List.filter_cons_of_neg (by simp [forced]),
          ← List.filter_filter]
        exact none forced
      · rw [if_neg (by simp [full])]
        by_cases here : cut.row ∈ loaded
        · rw [if_pos here, ih sorted' distinct', List.filter_cons_of_neg (by simpa using here)]
        · obtain ⟨left, places⟩ : ∃ left, limit - optional = left + 1 :=
            ⟨limit - optional - 1, by omega⟩
          have fewer : limit - (optional + 1) = left := by
            omega
          rw [if_neg here, ih sorted' distinct', apart, if_neg (by simp), fewer, places,
            List.filter_cons_of_pos (by simpa using here),
            List.filter_cons_of_neg (by simp [forced]), List.filter_cons_of_pos (by simp [forced]),
            none forced]
          rfl

/-- What the run through the sorted cuts picks. -/
theorem picked_eq {s : Linked (SeparationRound × Tree)} (distinct : s.own.1.rows.Nodup)
    (limit : Nat) : picked s limit = s.own.1.selection s.lp.loadedRows limit := by
  have rows := (Ranking.sort_perm StoredCut.before s.own.1.cuts).map StoredCut.row
  have weak := StoredCut.before_weak
  have alike (p : StoredCut → Bool) (forced : Bool) (same : ∀ cut, p cut = true → cut.forced = forced)
      (cuts : List StoredCut) :
      Ranking.sort StoredCut.before (cuts.filter p) = StoredCut.ranked (cuts.filter p) :=
    StoredCut.sort_alike fun cut member => same cut (List.of_mem_filter member)
  have fresh : s.own.1.cuts.filter (!s.lp.loadedRows.contains ·.row) =
      s.own.1.cuts.filter (·.row ∉ s.lp.loadedRows) := by
    apply List.filter_congr
    intro cut _
    simp
  unfold picked selection
  dsimp only
  rw [fresh, picks_eq (StoredCut.sort_forced _) (rows.nodup_iff.2 distinct), Nat.sub_zero,
    Ranking.filter_sort weak, Ranking.filter_sort weak, Ranking.filter_sort weak,
    alike (·.forced) true (fun _ forced => forced), alike (!·.forced) false (by simp)]

end SeparationRound

/-! ### The end of a round -/

/-- Why no row can be added at a node. -/
def Tree.Bars (tree : Tree) (id : NodeId) (e : Error) : Prop :=
  tree.focus ≠ some id ∧ e = .invalid (.rowOutsideFocus id.index) ∨
    tree.focus = some id ∧ tree.getLeaf id = .error e

theorem Tree.addRow_barred {s : Linked Tree} {id : NodeId} (elsewhere : ¬s.own.AtLeaf id)
    (row : RowId) :
    (addRow id row).Ensures s (fun _ _ => False) fun e s' => s' = s ∧ s.own.Bars id e := by
  unfold addRow
  rw [ensures_bind, ensures_get]
  split
  · rename_i unfocused
    exact ⟨rfl, .inl ⟨by simpa using unfocused, rfl⟩⟩
  · rename_i focused
    have focus : s.own.focus = some id := by
      simpa using focused
    change (Action.read _ >>= _).Ensures s _ _
    rw [ensures_bind]
    apply ensures_read.2
    constructor
    · intro node leaf
      exact absurd ⟨focus, node, leaf⟩ elsewhere
    · intro e refused
      exact ⟨rfl, .inr ⟨focus, refused⟩⟩

theorem Relaxation.handles_rowless : Handles SameRowless :=
  ⟨captureRow_rowless, releaseRow_rowless, loadRow_rowless⟩

namespace SeparationRound

variable {s s' : Linked (SeparationRound × Tree)} {owed : Holdings} {id : NodeId} {limit : Nat}
  {new : List RowId}

theorem addCuts_barred {s : Linked Tree} (settled : Settled s owed)
    (elsewhere : ¬s.own.AtLeaf id) (limit optional : Nat) (cuts : List StoredCut) :
    (addCuts id limit optional cuts).Ensures s
      (fun count s' => s' = s ∧ count = 0 ∧ picks limit s.lp.loadedRows optional cuts = [])
      (fun e s' => s' = s ∧ s.own.Bars id e ∧
        picks limit s.lp.loadedRows optional cuts ≠ []) := by
  have balanced : s.lp.Balanced (owed + Holder.holdings s.own) := settled
  induction cuts generalizing optional with
  | nil => exact ⟨rfl, rfl, rfl⟩
  | cons cut rest ih =>
    unfold addCuts picks
    split
    · exact ⟨rfl, rfl, rfl⟩
    · simp only [ensures_bind, ensures_get, balanced.isRowLoaded_iff]
      split
      · exact ih optional
      · rw [ensures_bind]
        apply (Tree.addRow_barred elsewhere cut.row).imp
        · intro _ _ no
          exact no.elim
        · intro e s' refused
          exact ⟨refused.1, refused.2, List.cons_ne_nil _ _⟩

/-- A round is over, beside which some rows were added. It uses its cuts no longer, whereas the
relaxation and a leaf use each of the added rows. -/
structure Ends (s : Linked (SeparationRound × Tree)) (new : List RowId)
    (s' : Linked (SeparationRound × Tree)) : Prop where
  emptied : s'.own.1 = .empty
  loaded : s'.lp.loadedRows = s.lp.loadedRows ++ new
  users : ∀ row, s'.lp.rows.users row + s.own.1.rows.count row =
    s.lp.rows.users row + 2 * new.count row
  within : s'.lp.rows.Within s.lp.rows
  rest : s.lp.SameRowless s'.lp

theorem Ends.of_closes (settled : Settled s owed) (settled' : Settled s' owed) {t : Linked Tree}
    (closes : Closes t s') (loaded : t.lp.loadedRows = s.lp.loadedRows ++ new)
    (holds : nodeHoldings t.own.nodes = nodeHoldings s.own.2.nodes + .ofRows new)
    (follows : Linked.Beside Relaxation.Follows s s')
    (rest : Linked.Beside Relaxation.SameRowless s s') : Ends s new s' := by
  have loaded' : s'.lp.loadedRows = s.lp.loadedRows ++ new := by
    rw [closes.still.loadedRows, loaded]
  refine ⟨closes.emptied, loaded', fun row => ?_, follows.rows, rest⟩
  have before : s.lp.Balanced (owed + (.ofRows s.own.1.rows + nodeHoldings s.own.2.nodes)) :=
    settled
  have after : s'.lp.Balanced (owed + (nodeHoldings s.own.2.nodes + .ofRows new)) := by
    have balanced : s'.lp.Balanced
        (owed + (.ofRows s'.own.1.rows + nodeHoldings s'.own.2.nodes)) := settled'
    rw [closes.emptied, closes.tree, holds] at balanced
    change s'.lp.Balanced (owed + (0 + _)) at balanced
    rwa [zero_add] at balanced
  have moved : owed + (nodeHoldings s.own.2.nodes + .ofRows new) + .ofRows s.own.1.rows =
      owed + (.ofRows s.own.1.rows + nodeHoldings s.own.2.nodes) + .ofRows new := by
    abel
  have counts := before.users_rows after moved row
  rw [loaded', List.count_append] at counts
  simp only [Holdings.ofRows, Multiset.coe_count] at counts
  omega

/-- What a round comes to: what it selects is added if the node is the focus and a leaf. Nothing
is added elsewhere, and if something was selected this is refused. -/
structure Selects (s : Linked (SeparationRound × Tree)) (id : NodeId) (limit : Nat)
    (outcome : Outcome (Linked (SeparationRound × Tree)) Nat) : Prop where
  atLeaf : s.own.2.AtLeaf id →
    outcome.result = .ok (s.own.1.selection s.lp.loadedRows limit).length ∧
      s.own.2.Records id (s.own.1.selection s.lp.loadedRows limit) outcome.state.own.2 ∧
      Ends s (s.own.1.selection s.lp.loadedRows limit) outcome.state
  elsewhere : ¬s.own.2.AtLeaf id → outcome.state.own.2 = s.own.2 ∧ Ends s [] outcome.state ∧
    (s.own.1.selection s.lp.loadedRows limit = [] → outcome.result = .ok 0) ∧
    (s.own.1.selection s.lp.loadedRows limit ≠ [] →
      ∃ e, outcome.result = .error e ∧ s.own.2.Bars id e)

/-- Where no row can be added the tree and the loaded rows stay as they are. -/
theorem apply_barred (settled : Settled s owed) (elsewhere : ¬s.own.2.AtLeaf id) (limit : Nat) :
    (SeparationRound.apply id limit).Ensures s
      (fun count s' => Settled s' owed ∧ Closes (treeBeside s) s' ∧
        count = 0 ∧ picked s limit = [])
      (fun e s' => Settled s' owed ∧ Closes (treeBeside s) s' ∧
        s.own.2.Bars id e ∧ picked s limit ≠ []) := by
  let idle (count : Nat) (t : Linked Tree) : Prop :=
    t = treeBeside s ∧ count = 0 ∧ picked s limit = []
  let barred (e : Error) (t : Linked Tree) : Prop :=
    t = treeBeside s ∧ s.own.2.Bars id e ∧ picked s limit ≠ []
  have bars :
      (addCuts id limit 0 (Ranking.sort StoredCut.before s.own.1.cuts)).Ensures (treeBeside s)
        (fun count t => Settled t (owed + Holder.holdings s.own.1) ∧ idle count t)
        (fun e t => Settled t (owed + Holder.holdings s.own.1) ∧ barred e t) := by
    apply ((addCuts_reaches settled.right id limit 0 _).and
      (addCuts_barred settled.right elsewhere limit 0 _)).imp
    · intro _ _ done
      exact ⟨done.1.1, done.2⟩
    · intro _ _ refused
      exact ⟨refused.1.1, refused.2⟩
  apply (apply_closes bars).imp
  all_goals
    intro _ s' closed
    obtain ⟨settled', t, ⟨rfl, did⟩, closes⟩ := closed
    exact ⟨settled', closes, did⟩

theorem apply_selects (settled : Settled s owed) (tallied : s.own.1.Tallied) (id : NodeId)
    (limit : Nat) : Selects s id limit (SeparationRound.apply id limit s) := by
  have follows := reaches_iff.1 (apply_beside Relaxation.handles_follows id limit s)
  have rest := reaches_iff.1 (apply_beside Relaxation.handles_rowless id limit s)
  have selected := picked_eq tallied.distinct limit
  constructor
  · intro atLeaf
    obtain ⟨_, ended, settled', t, ⟨rfl, records, loaded⟩, closes⟩ :=
      ensures_never (apply_adds settled atLeaf limit)
    rw [selected] at ended records loaded
    refine ⟨ended, ?_, .of_closes settled settled' closes loaded records.holds follows rest⟩
    rw [closes.tree]
    exact records
  · intro elsewhere
    have barred := apply_barred settled elsewhere limit
    rw [selected] at barred
    have ends (settled' : Settled (SeparationRound.apply id limit s).state owed)
        (closes : Closes (treeBeside s) (SeparationRound.apply id limit s).state) :
        Ends s [] (SeparationRound.apply id limit s).state :=
      .of_closes settled settled' closes (List.append_nil _).symm (add_zero _).symm follows rest
    cases ended : (SeparationRound.apply id limit s).result with
    | ok count =>
      obtain ⟨settled', closes, rfl, none⟩ := ensures_of_ok ended barred
      exact ⟨closes.tree, ends settled' closes, fun _ => rfl, fun some => absurd none some⟩
    | error e =>
      obtain ⟨settled', closes, bars, some⟩ := ensures_of_error ended barred
      exact ⟨closes.tree, ends settled' closes, fun none => absurd none some,
        fun _ => ⟨e, rfl, bars⟩⟩

end SeparationRound

/-! ### Worlds -/

variable {ι : Type} [Fintype ι] [DecidableEq ι] [Inhabited ι] {rule : Rule ι} {p : ι}
  {w : World ι} {offers : List StoredCut}

/-- A run along which cuts are handed in to the round at a place, and what was handed in. What the
round stores to begin with counts as handed in. -/
inductive Collects (rule : Rule ι) (p : ι) : World ι → List StoredCut → Prop where
  | start {w : World ι} : Reachable rule w → Collects rule p w (w.cutRounds p).cuts
  | add {w w' : World ι} {offers : List StoredCut} {cut : StoredCut} : Collects rule p w offers →
      rule w (.cutRound p (.add cut.row cut.efficacy cut.forced)) →
      Step (.cutRound p (.add cut.row cut.efficacy cut.forced)) w w' →
      ((Call.cutRound p (.add cut.row cut.efficacy cut.forced)).perform w).result = .ok () →
      Collects rule p w' (offers ++ [cut])
  | other {w w' : World ι} {offers : List StoredCut} {call : Call ι} : Collects rule p w offers →
      rule w call → Step call w w' → w'.cutRounds p = w.cutRounds p → Collects rule p w' offers

namespace Collects

omit [Fintype ι] in
theorem reachable (collects : Collects rule p w offers) : Reachable rule w := by
  induction collects with
  | start reached => exact reached
  | add _ allowed step _ ih => exact ih.step allowed step
  | other _ allowed step _ ih => exact ih.step allowed step

theorem stocks (collects : Collects rule p w offers) : (w.cutRounds p).Stocks offers := by
  induction collects with
  | start reached => exact (reached.tallied p).stocks
  | @add w w' offers cut _ _ step ended ih =>
    have offered :
        (Call.cutRound p (.add cut.row cut.efficacy cut.forced)).perform.Yields w fun _ w' =>
          w'.cutRounds p = (w.cutRounds p).offer cut := by
      apply ensures_run.2
      apply (SeparationRound.add_offers _ cut.row cut.efficacy cut.forced).yields
      intro _ t same
      exact (Function.update_self p t.own w.cutRounds).trans same
    have same := ensures_of_ok ended offered
    rw [step.performed] at same
    rw [same]
    exact ih.offer cut
  | other _ _ _ same ih =>
    rw [same]
    exact ih

end Collects

/-- Whatever was handed in to a round, what it adds is what it selects. -/
theorem cuts_selected (collects : Collects rule p w offers) (q : ι) (id : NodeId) (limit : Nat) :
    (w.cutRounds p).Stocks offers ∧
      SeparationRound.Selects ⟨(w.cutRounds p, w.trees q), w.lp⟩ id limit
        (SeparationRound.apply id limit ⟨(w.cutRounds p, w.trees q), w.lp⟩) := by
  have reached := collects.reachable
  obtain ⟨_, kept, _⟩ := reached.kept
  obtain ⟨_, settled, _⟩ := (World.applying_frames p q).enter kept.settled
  exact ⟨collects.stocks, SeparationRound.apply_selects settled (reached.tallied p) id limit⟩

/-- A root with a row that is loaded, and four rows that are not. -/
def stocking : List (Call Unit) :=
  rooting ++ [.client (.createRow ⟨"a", ⟨1, []⟩, 0, 1, false⟩),
    .client (.createRow ⟨"b", ⟨1, []⟩, 0, 1, false⟩),
    .client (.createRow ⟨"c", ⟨1, []⟩, 0, 1, false⟩),
    .client (.createRow ⟨"d", ⟨1, []⟩, 0, 1, false⟩)]

/-- The loaded row comes first, then one whose efficacy is undefined with the sign bit, and the last
row comes again as forced. -/
def tenders : List StoredCut :=
  [⟨⟨0, 0⟩, .ofFloat 5, false⟩, ⟨⟨4, 0⟩, ⟨0xfff8000000000000⟩, false⟩,
    ⟨⟨1, 0⟩, .ofFloat 0.5, false⟩, ⟨⟨2, 0⟩, .ofFloat 0.9, false⟩, ⟨⟨3, 0⟩, .ofFloat 0.1, false⟩,
    ⟨⟨3, 0⟩, .ofFloat 0.7, true⟩]

/-- The world after the first ones of these cuts were handed in. -/
def World.tendered (count : Nat) : World Unit :=
  World.initial.after (stocking ++ (tenders.take count).map fun cut =>
    .cutRound () (.add cut.row cut.efficacy cut.forced))

theorem World.tendered_collects :
    Collects (fun _ _ => True) () (World.tendered 6) tenders := by
  let collected (count : Nat) : Prop :=
    Collects (fun _ _ => True) () (World.tendered count) (tenders.take count)
  have plays : Plays (fun _ _ => True) World.initial stocking := by
    decide +kernel
  have roomy : ∀ count < 7, (World.tendered count).Roomy := by
    decide +kernel
  have none : collected 0 := .start plays.reachable
  have one : collected 1 := none.add trivial ⟨rfl, trivial, roomy 1 (by decide)⟩ (by decide +kernel)
  have two : collected 2 := one.add trivial ⟨rfl, trivial, roomy 2 (by decide)⟩ (by decide +kernel)
  have three : collected 3 :=
    two.add trivial ⟨rfl, trivial, roomy 3 (by decide)⟩ (by decide +kernel)
  have four : collected 4 :=
    three.add trivial ⟨rfl, trivial, roomy 4 (by decide)⟩ (by decide +kernel)
  have five : collected 5 :=
    four.add trivial ⟨rfl, trivial, roomy 5 (by decide)⟩ (by decide +kernel)
  exact five.add trivial ⟨rfl, trivial, roomy 6 (by decide)⟩ (by decide +kernel)

theorem cuts_selected_tendered :
    let s : Linked (SeparationRound × Tree) :=
      ⟨((World.tendered 6).cutRounds (), (World.tendered 6).trees ()), (World.tendered 6).lp⟩
    Collects (fun _ _ => True) () (World.tendered 6) tenders ∧ s.own.2.AtLeaf ⟨0, 0⟩ ∧
      (SeparationRound.apply ⟨0, 0⟩ 1 s).state.lp.loadedRows = [⟨0, 0⟩, ⟨3, 0⟩, ⟨2, 0⟩] ∧
      s.own.1.Stocks tenders ∧
      SeparationRound.Selects s ⟨0, 0⟩ 1 (SeparationRound.apply ⟨0, 0⟩ 1 s) := by
  have atLeaf : ((World.tendered 6).trees ()).AtLeaf ⟨0, 0⟩ := ⟨by decide +kernel, _, rfl⟩
  exact ⟨World.tendered_collects, atLeaf, by decide +kernel,
    cuts_selected World.tendered_collects () ⟨0, 0⟩ 1⟩

end BranchCutPrice
