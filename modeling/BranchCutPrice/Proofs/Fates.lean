import BranchCutPrice.Proofs.Passages
import BranchCutPrice.Proofs.Rounding
import BranchCutPrice.Proofs.Runs

/-!
What becomes of the leaves of a search. A leaf that was created is queued, or handed out to the
client, or closed in one of three ways, and at every moment it is exactly one of these. What
was cut off stays beaten by the incumbent.
-/

namespace BranchCutPrice

open BranchCutPrice.Action BranchCutPrice.Tree

/-! ### Cutoffs -/

/-- What reaches a cutoff reaches the cutoffs after it. -/
theorem Incumbent.Lowers.reaches {incumbent incumbent' : Incumbent} {bound : Float}
    (lowers : incumbent.Lowers incumbent')
    (reaches : incumbent.cutoff - Double.boundSlack ≤ bound) :
    incumbent'.cutoff - Double.boundSlack ≤ bound := by
  unfold Incumbent.cutoff at reaches ⊢
  obtain same | less := lowers
  · rw [same]
    exact reaches
  · have slack := Double.sub_slack_le (Double.lt_iff.1 less).1
    exact Double.le_of_lt (Double.lt_of_lt_of_le (Double.lt_of_le_of_lt slack less) reaches)

/-- No objective that a leaf which was cut off could have is taken over. -/
theorem Incumbent.update_rejects {incumbent : Incumbent} {bound objective : Float}
    (reaches : incumbent.cutoff - Double.boundSlack ≤ bound) (worse : bound ≤ objective)
    (solution : Array Float) : (Incumbent.update solution objective incumbent).result = .ok false ∧
      (Incumbent.update solution objective incumbent).state = incumbent := by
  have rejected : ¬incumbent.improvedBy objective = true := by
    intro better
    have better : objective < incumbent.objective - Double.boundSlack := of_decide_eq_true better
    exact Double.not_lt_of_le (Double.le_trans reaches worse) better
  have ensured : (Incumbent.update solution objective).Ensures incumbent
      (fun taken incumbent' => taken = false ∧ incumbent' = incumbent) fun _ _ => False := by
    unfold Incumbent.update
    rw [ensures_modifyGet, if_neg rejected]
    exact ⟨rfl, rfl⟩
  obtain ⟨taken, ended, rfl, same⟩ := ensures_never ensured
  exact ⟨ended, same⟩

/-! ### Events -/

/-- A call creates a leaf. -/
structure SessionCall.Bears (call : SessionCall) (leaf : Leaf) (s : Session) : Prop where
  creates : call.Creates
  before : ¬s.tree.Stands leaf
  after : (call.perform s).state.tree.Stands leaf

/-- A call closes a leaf whose bound reaches the cutoff. -/
structure SessionCall.CutsOff (call : SessionCall) (leaf : Leaf) (bound : Float)
    (s : Session) : Prop where
  prunes : call.Prunes
  before : s.tree.leafAt leaf.id = some (leaf.seq, bound)
  after : ¬(call.perform s).state.tree.Stands leaf
  reaches : (call.perform s).state.incumbent.cutoff - Double.boundSlack ≤ bound

variable {ι : Type} [DecidableEq ι] [Inhabited ι]

/-- Some call on the session was an event, by the session before it, and no later call undid
it. -/
def Since (w : World ι) (calls : List (Call ι)) (event : Session → SessionCall → Prop)
    (undoes : SessionCall → Prop) : Prop :=
  ∃ before call after, calls = before ++ .session call :: after ∧
    event (w.after before).session call ∧ ∀ later, .session later ∈ after → ¬undoes later

/-- Some call on the session was an event. -/
def Happened (w : World ι) (calls : List (Call ι)) (event : Session → SessionCall → Prop) :
    Prop :=
  Since w calls event fun _ => False

/-- What can have become of a leaf that was created. -/
inductive Fate where
  | queued
  | handedOut
  | branched
  | finished
  | pruned
  deriving DecidableEq, Repr

/-- The calls by which leaves meet a fate that is final. -/
def Fate.Ends (leaf : Leaf) (s : Session) (call : SessionCall) : Fate → Prop
  | branched => call.Branches leaf.id ∧ s.tree.Stands leaf
  | finished => call.Finishes leaf.id ∧ s.tree.Stands leaf
  | pruned => ∃ bound, call.CutsOff leaf bound s
  | queued | handedOut => False

abbrev Created (w : World ι) (calls : List (Call ι)) (leaf : Leaf) : Prop :=
  Happened w calls fun s call => call.Bears leaf s

/-- A leaf was handed out, and no call was made to close it since. -/
abbrev HandedOut (w : World ι) (calls : List (Call ι)) (leaf : Leaf) : Prop :=
  Since w calls
    (fun s call => call.HandsOut s leaf.id ∧ (call.perform s).state.tree.Stands leaf)
    (SessionCall.Closes leaf.id)

abbrev Ended (w : World ι) (calls : List (Call ι)) (leaf : Leaf) (fate : Fate) : Prop :=
  Happened w calls fun s call => fate.Ends leaf s call

def Fate.Meets (w : World ι) (calls : List (Call ι)) (leaf : Leaf) : Fate → Prop
  | queued => (w.after calls).session.tree.Queues leaf
  | handedOut => HandedOut w calls leaf
  | fate => Ended w calls leaf fate

theorem World.session_after (w : World ι) (calls : List (Call ι)) (call : SessionCall) :
    (w.after (calls ++ [.session call])).session =
      (call.perform (w.after calls).session).state := by
  rw [World.after_concat]
  exact World.session_set (w.after calls) _

/-- Calls of the client on the relaxation, and successful calls on the session that do not
clear it. -/
def Searching (w : World ι) : Call ι → Prop
  | .client _ => True
  | .session call => call ≠ .clear ∧ (call.perform w.session).result = .ok ()
  | _ => False

instance (w : World ι) : (call : Call ι) → Decidable (Searching w call)
  | .client _ => isTrue trivial
  | .session _ => inferInstanceAs (Decidable (_ ∧ _))
  | .tree _ _ | .rowPool _ _ | .cutPool _ _ | .cutRound _ _ | .separate _ _
  | .applyCuts _ _ _ _ => isFalse id

/-! ### Ends -/

section Ends

variable {s : Session} {call : SessionCall} {leaf : Leaf} {fate other : Fate}

/-- The final fate that leaves can meet by a call. -/
def SessionCall.ending : SessionCall → Fate
  | branch _ _ => .branched
  | finishNode _ => .finished
  | _ => .pruned

theorem Fate.Ends.eq_ending (ends : fate.Ends leaf s call) : fate = call.ending := by
  cases fate with
  | queued | handedOut => exact ends.elim
  | branched =>
    have branches := ends.1
    cases call with
    | branch => rfl
    | _ => exact branches.elim
  | finished =>
    have finishes := ends.1
    cases call with
    | finishNode => rfl
    | _ => exact finishes.elim
  | pruned =>
    obtain ⟨bound, cut⟩ := ends
    have prunes := cut.prunes
    cases call with
    | nextNode | reportSolution => rfl
    | _ => exact prunes.elim

theorem Fate.Ends.stands (ends : fate.Ends leaf s call) : s.tree.Stands leaf := by
  cases fate with
  | queued | handedOut => exact ends.elim
  | branched | finished => exact ends.2
  | pruned =>
    obtain ⟨bound, cut⟩ := ends
    exact ⟨bound, cut.before⟩

theorem Fate.Ends.gone (passage : call.Passage s (call.perform s).state)
    (ends : fate.Ends leaf s call) : ¬(call.perform s).state.tree.Stands leaf := by
  cases fate with
  | queued | handedOut => exact ends.elim
  | branched => exact passage.closed leaf ends.2 (.inl ends.1)
  | finished => exact passage.closed leaf ends.2 (.inr ends.1)
  | pruned =>
    obtain ⟨bound, cut⟩ := ends
    exact cut.after

/-- A leaf that is gone met a final fate. -/
theorem SessionCall.Passage.ends (passage : call.Passage s (call.perform s).state)
    (stands : s.tree.Stands leaf) (gone : ¬(call.perform s).state.tree.Stands leaf) :
    ∃ fate : Fate, fate.Ends leaf s call := by
  have ⟨bound, before⟩ := stands
  obtain (branches | finishes) | ⟨prunes, _, reaches⟩ := passage.gone leaf bound before gone
  · exact ⟨.branched, branches, stands⟩
  · exact ⟨.finished, finishes, stands⟩
  · exact ⟨.pruned, bound, prunes, before, gone, reaches⟩

end Ends

/-! ### Histories -/

section Histories

variable {w : World ι} {calls : List (Call ι)} {event : Session → SessionCall → Prop}
  {undoes : SessionCall → Prop}

/-- What is so since some call was so before the last call, or is so by it. -/
theorem since_concat {last : Call ι} : Since w (calls ++ [last]) event undoes ↔
    Since w calls event undoes ∧ (∀ call, last = .session call → ¬undoes call) ∨
      ∃ call, last = .session call ∧ event (w.after calls).session call := by
  constructor
  · intro since
    obtain ⟨before, call, after, split, happened, stays⟩ := since
    obtain rfl | ⟨after, final, rfl⟩ := List.eq_nil_or_concat after
    · obtain ⟨rfl, same⟩ := List.append_inj' split rfl
      exact .inr ⟨call, (List.cons.inj same).1, happened⟩
    · rw [List.concat_eq_append] at split stays
      rw [← List.cons_append, ← List.append_assoc] at split
      obtain ⟨rfl, same⟩ := List.append_inj' split rfl
      obtain ⟨rfl, _⟩ := List.cons.inj same
      refine .inl ⟨⟨before, call, after, rfl, happened, fun later member => ?_⟩, ?_⟩
      · exact stays later (List.mem_append_left _ member)
      · rintro later rfl
        exact stays later (List.mem_append_right _ (List.mem_singleton_self _))
  · rintro (⟨⟨before, call, after, rfl, happened, stays⟩, kept⟩ | ⟨call, rfl, happened⟩)
    · refine ⟨before, call, after ++ [last], by simp, happened, fun later member => ?_⟩
      obtain earlier | final := List.mem_append.1 member
      · exact stays later earlier
      · exact kept later (List.mem_singleton.1 final).symm
    · exact ⟨calls, call, [], rfl, happened, nofun⟩

theorem since_session {last : SessionCall} : Since w (calls ++ [.session last]) event undoes ↔
    Since w calls event undoes ∧ ¬undoes last ∨ event (w.after calls).session last := by
  rw [since_concat]
  simp

theorem happened_session {last : SessionCall} : Happened w (calls ++ [.session last]) event ↔
    Happened w calls event ∨ event (w.after calls).session last := by
  unfold Happened
  rw [since_session]
  simp

/-- Calls of the client on the relaxation are no events. -/
theorem since_client {client : ClientCall} :
    Since w (calls ++ [.client client]) event undoes ↔ Since w calls event undoes := by
  rw [since_concat]
  simp

end Histories

/-! ### Accounts -/

/-- What is known of the leaves after some calls. -/
structure Accounts (w : World ι) (calls : List (Call ι)) (s : Session) : Prop where
  tidy : s.tree.Tidy
  born : ∀ leaf, s.tree.Stands leaf → Created w calls leaf
  standing : ∀ leaf, Created w calls leaf → s.tree.Stands leaf →
    s.tree.Queues leaf ∨ HandedOut w calls leaf
  gone : ∀ leaf, Created w calls leaf → ¬s.tree.Stands leaf → ∃ fate, Ended w calls leaf fate
  handedOut : ∀ leaf, HandedOut w calls leaf → s.tree.Stands leaf ∧ ¬s.tree.Queues leaf
  ended : ∀ leaf fate, Ended w calls leaf fate →
    ¬s.tree.Stands leaf ∧ leaf.seq < s.tree.nextSeq
  unique : ∀ leaf fate other, Ended w calls leaf fate → Ended w calls leaf other → other = fate
  cut : ∀ leaf bound, (Happened w calls fun s call => call.CutsOff leaf bound s) →
    s.incumbent.cutoff - Double.boundSlack ≤ bound

namespace Accounts

variable {w : World ι} {calls : List (Call ι)} {s : Session}

theorem client (accounts : Accounts w calls s) (client : ClientCall) {s' : Session}
    (idle : Session.Idle s s') : Accounts w (calls ++ [.client client]) s' := by
  obtain ⟨tree, incumbent⟩ := idle
  have same {event : Session → SessionCall → Prop} :
      Happened w (calls ++ [.client client]) event ↔ Happened w calls event :=
    since_client
  constructor
  all_goals
    simp only [same, tree, incumbent, since_client]
  · exact accounts.tidy
  · exact accounts.born
  · exact accounts.standing
  · exact accounts.gone
  · exact accounts.handedOut
  · exact accounts.ended
  · exact accounts.unique
  · exact accounts.cut

theorem session {call : SessionCall} (accounts : Accounts w calls (w.after calls).session)
    (passage : call.Passage (w.after calls).session
      (call.perform (w.after calls).session).state) :
    Accounts w (calls ++ [.session call]) (call.perform (w.after calls).session).state := by
  -- a leaf that is gone or still to come does not come back
  have never {leaf : Leaf} (absent : ¬(w.after calls).session.tree.Stands leaf)
      (old : leaf.seq < (w.after calls).session.tree.nextSeq) :
      ¬(call.perform (w.after calls).session).state.tree.Stands leaf := by
    intro now
    obtain before | ⟨_, new, _⟩ := passage.born leaf now
    · exact absent before
    · omega
  constructor
  · exact passage.tidy
  · intro leaf now
    by_cases before : (w.after calls).session.tree.Stands leaf
    · exact happened_session.2 (.inl (accounts.born leaf before))
    · obtain before' | ⟨creates, _⟩ := passage.born leaf now
      · exact absurd before' before
      · exact happened_session.2 (.inr ⟨creates, before, now⟩)
  · intro leaf created now
    obtain before | ⟨_, _, queues⟩ := passage.born leaf now
    · have open' : ¬call.Closes leaf.id := fun named => passage.closed leaf before named now
      have earlier : Created w calls leaf := by
        obtain earlier | bears := happened_session.1 created
        · exact earlier
        · exact absurd before bears.before
      obtain queues | handed := accounts.standing leaf earlier before
      · obtain queues | hands := passage.taken leaf queues now
        · exact .inl queues
        · exact .inr (since_session.2 (.inr ⟨hands, now⟩))
      · exact .inr (since_session.2 (.inl ⟨handed, open'⟩))
    · exact .inl queues
  · intro leaf created gone
    obtain earlier | bears := happened_session.1 created
    · by_cases before : (w.after calls).session.tree.Stands leaf
      · obtain ⟨fate, ends⟩ := passage.ends before gone
        exact ⟨fate, happened_session.2 (.inr ends)⟩
      · obtain ⟨fate, ended⟩ := accounts.gone leaf earlier before
        exact ⟨fate, happened_session.2 (.inl ended)⟩
    · exact absurd bears.after gone
  · intro leaf handed
    obtain ⟨earlier, open'⟩ | ⟨hands, now⟩ := since_session.1 handed
    · obtain ⟨before, absent⟩ := accounts.handedOut leaf earlier
      refine ⟨?_, fun queues => absent (passage.waits leaf before queues)⟩
      by_contra gone
      obtain ⟨bound, there⟩ := before
      obtain named | ⟨_, queues, _⟩ := passage.gone leaf bound there gone
      · exact open' named
      · exact absent queues
    · exact ⟨now, passage.handed leaf hands now⟩
  · intro leaf fate ended
    obtain earlier | ends := happened_session.1 ended
    · obtain ⟨absent, old⟩ := accounts.ended leaf fate earlier
      exact ⟨never absent old, old.trans_le passage.nextSeq⟩
    · exact ⟨ends.gone passage, (accounts.tidy.seq_lt ends.stands).trans_le passage.nextSeq⟩
  · intro leaf fate other ended ended'
    obtain earlier | ends := happened_session.1 ended
    · obtain earlier' | ends' := happened_session.1 ended'
      · exact accounts.unique leaf fate other earlier earlier'
      · exact absurd ends'.stands (accounts.ended leaf fate earlier).1
    · obtain earlier' | ends' := happened_session.1 ended'
      · exact absurd ends.stands (accounts.ended leaf other earlier').1
      · exact ends'.eq_ending.trans ends.eq_ending.symm
  · intro leaf bound cut
    obtain earlier | cuts := happened_session.1 cut
    · exact passage.incumbent.reaches (accounts.cut leaf bound earlier)
    · exact cuts.reaches

/-- Before the first call there are no leaves. -/
theorem fresh (fresh : w.Fresh) : Accounts w [] w.session := by
  obtain ⟨settings, empty⟩ := fresh.trees default
  have tree : w.session.tree = .empty settings := empty
  have none {event : Session → SessionCall → Prop} : ¬Happened w [] event := by
    rintro ⟨before, call, after, split, _⟩
    cases before <;> cases split
  have absent (leaf : Leaf) : ¬w.session.tree.Stands leaf := by
    rintro ⟨bound, there⟩
    rw [tree] at there
    cases there
  constructor
  · rw [tree]
    exact ⟨nofun, .nil, nofun⟩
  · intro leaf stands
    exact absurd stands (absent leaf)
  · intro leaf created
    exact absurd created none
  · intro leaf created
    exact absurd created none
  · rintro leaf ⟨before, call, after, split, _⟩
    cases before <;> cases split
  · intro leaf fate ended
    exact absurd ended none
  · intro leaf fate other ended
    exact absurd ended none
  · intro leaf bound cut
    exact absurd cut none

/-- The accounts are kept along a search. -/
theorem of_plays [Fintype ι] (fresh : w.Fresh) (plays : Plays Searching w calls) :
    Accounts w calls (w.after calls).session := by
  induction calls using List.reverseRecOn with
  | nil => exact .fresh fresh
  | append_singleton calls last ih =>
    obtain ⟨earlier, allowed, _, roomy⟩ := Plays.concat_iff.1 plays
    have accounts := ih earlier
    cases last with
    | client call =>
      apply accounts.client
      rw [World.after_concat]
      exact ⟨rfl, rfl⟩
    | session call =>
      obtain ⟨running, succeeded⟩ := allowed
      obtain ⟨_, kept, _⟩ := earlier.run.kept fresh.kept
      have reached := World.session_after w calls call
      have fits : (call.perform (w.after calls).session).state.tree.nodes.Fits := by
        rw [← reached]
        exact (roomy.nodes default).fits
      have sound : (w.after calls).session.tree.nodes.Sound := (kept.shaped default).sound
      have passage := yields_iff.1 (call.passage running accounts.tidy sound) () succeeded fits
      rw [reached]
      exact accounts.session passage
    | _ => exact allowed.elim

end Accounts

namespace Fate

variable {w : World ι} {calls : List (Call ι)} {leaf : Leaf} {fate other : Fate}

theorem meets_of_ended (ended : Ended w calls leaf fate) : fate.Meets w calls leaf := by
  cases fate with
  | queued | handedOut =>
    obtain ⟨_, _, _, _, ends, _⟩ := ended
    exact ends.elim
  | branched | finished | pruned => exact ended

theorem Meets.cases (meets : fate.Meets w calls leaf) :
    fate = queued ∧ (w.after calls).session.tree.Queues leaf ∨
      fate = handedOut ∧ HandedOut w calls leaf ∨ Ended w calls leaf fate := by
  cases fate with
  | queued => exact .inl ⟨rfl, meets⟩
  | handedOut => exact .inr (.inl ⟨rfl, meets⟩)
  | branched | finished | pruned => exact .inr (.inr meets)

/-- Leaves that are queued or handed out are still there, unlike those that met other fates. -/
theorem Meets.unique (accounts : Accounts w calls (w.after calls).session)
    (meets : fate.Meets w calls leaf) (meets' : other.Meets w calls leaf) : other = fate := by
  obtain ⟨rfl, queues⟩ | ⟨rfl, handed⟩ | ended := meets.cases
  · obtain ⟨rfl, _⟩ | ⟨rfl, handed⟩ | ended := meets'.cases
    · rfl
    · exact absurd queues (accounts.handedOut leaf handed).2
    · exact absurd (accounts.tidy.stands queues) (accounts.ended leaf other ended).1
  · obtain ⟨rfl, queues⟩ | ⟨rfl, _⟩ | ended := meets'.cases
    · exact absurd queues (accounts.handedOut leaf handed).2
    · rfl
    · exact absurd (accounts.handedOut leaf handed).1 (accounts.ended leaf other ended).1
  · obtain ⟨rfl, queues⟩ | ⟨rfl, handed⟩ | ended' := meets'.cases
    · exact absurd (accounts.tidy.stands queues) (accounts.ended leaf fate ended).1
    · exact absurd (accounts.handedOut leaf handed).1 (accounts.ended leaf fate ended).1
    · exact accounts.unique leaf fate other ended ended'

end Fate

/-- No leaf is handed out that the cutoff would take. -/
theorem Session.nextNode_below {s : Session} {id : NodeId} (tidy : s.tree.Tidy)
    (handed : (nextNode s).result = .ok (some id)) :
    ∃ seq bound, (nextNode s).state.tree.leafAt id = some (seq, bound) ∧
      ¬(nextNode s).state.incumbent.cutoff - Double.boundSlack ≤ bound := by
  obtain ⟨pruned, incumbent, sheds, _, taken⟩ := ensures_of_ok handed (nextNode_advances tidy)
  obtain ⟨open', entry, member, rfl, below⟩ := taken id rfl
  refine ⟨entry.seq, entry.bound, ?_, ?_⟩
  · rw [sheds.leaves, if_neg open']
    exact tidy.queued entry member
  · rw [incumbent]
    exact below

/-- In a search no leaf is lost. Every leaf that was created is queued, or handed out and not
closed since, or was closed by a branching, a finish or a cutoff, and only one of these. What
was cut off once is rejected as a solution from then on, and what the cutoff would take is
never handed out. As the beginnings of a search are searches, this is so at every moment. -/
theorem leaves_accounted [Fintype ι] {w : World ι} {calls : List (Call ι)} (fresh : w.Fresh)
    (plays : Plays Searching w calls) :
    (∀ leaf, (w.after calls).session.tree.Stands leaf → Created w calls leaf) ∧
    (∀ leaf, Created w calls leaf → ∃! fate : Fate, fate.Meets w calls leaf) ∧
    (∀ leaf bound, (Happened w calls fun s call => call.CutsOff leaf bound s) →
      ∀ solution objective, bound ≤ objective →
        let outcome := Incumbent.update solution objective (w.after calls).incumbent
        outcome.result = .ok false ∧ outcome.state = (w.after calls).incumbent) ∧
    ∀ id, (Session.nextNode (w.after calls).session).result = .ok (some id) →
      let s' := (Session.nextNode (w.after calls).session).state
      ∃ seq bound, s'.tree.leafAt id = some (seq, bound) ∧
        ¬s'.incumbent.cutoff - Double.boundSlack ≤ bound := by
  have accounts := Accounts.of_plays fresh plays
  refine ⟨accounts.born, fun leaf created => ?_, ?_, ?_⟩
  · have met : ∃ fate : Fate, fate.Meets w calls leaf := by
      by_cases stands : (w.after calls).session.tree.Stands leaf
      · obtain queues | handed := accounts.standing leaf created stands
        · exact ⟨.queued, queues⟩
        · exact ⟨.handedOut, handed⟩
      · obtain ⟨fate, ended⟩ := accounts.gone leaf created stands
        exact ⟨fate, Fate.meets_of_ended ended⟩
    obtain ⟨fate, meets⟩ := met
    exact ⟨fate, meets, fun other meets' => meets.unique accounts meets'⟩
  · intro leaf bound cut solution objective worse
    exact Incumbent.update_rejects (accounts.cut leaf bound cut) worse solution
  · intro id handed
    exact Session.nextNode_below accounts.tidy handed

/-- A solution cuts off one of the leaves below a root, while the other one is handed out. -/
def searching : List (Call Unit) :=
  [.session .start, .session .nextNode, .session (.installSolution ⟨0, 0⟩ #[] #[] 3),
    .session (.branch ⟨0, 0⟩ [[], []]), .session .nextNode, .session (.reportSolution #[] 2)]

theorem leaves_accounted_pruned :
    Fate.pruned.Meets World.initial searching ⟨⟨1, 0⟩, 1⟩ ∧
      (∃! fate : Fate, fate.Meets World.initial searching ⟨⟨1, 0⟩, 1⟩) ∧
      (Incumbent.update #[] 3 (World.initial.after searching).incumbent).result = .ok false := by
  have plays : Plays Searching World.initial searching := by
    decide +kernel
  have created : Created World.initial searching ⟨⟨1, 0⟩, 1⟩ := by
    refine ⟨searching.take 3, _, searching.drop 4, rfl, ⟨trivial, ?_, ?_⟩, fun _ _ no => no⟩
    all_goals decide +kernel
  have cut : Happened World.initial searching fun s call => call.CutsOff ⟨⟨1, 0⟩, 1⟩ 3 s := by
    refine ⟨searching.take 5, _, [], rfl, ⟨trivial, ?_, ?_, ?_⟩, nofun⟩
    all_goals decide +kernel
  obtain ⟨_, accounted, rejected, _⟩ := leaves_accounted World.initial_fresh plays
  refine ⟨?_, accounted _ created, (rejected _ 3 cut #[] 3 (by decide +kernel)).1⟩
  obtain ⟨before, call, after, split, cuts, stays⟩ := cut
  exact ⟨before, call, after, split, ⟨3, cuts⟩, stays⟩

end BranchCutPrice
