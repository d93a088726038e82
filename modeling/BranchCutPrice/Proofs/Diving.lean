import BranchCutPrice.Proofs.Selection

/-!
Queues that dive from time to time. A leaf is ranked when it is queued: by its depth if a multiple
of the period was taken up before, else by its bound. The ranks stay, so depths and bounds lie in
one queue and are compared with each other. What is taken up is the deepest of the leaves that were
ranked by depth or the lowest of those that were ranked by bound; it need not be the deepest or the
lowest one of all.
-/

namespace BranchCutPrice

/-- Operations on a queue. -/
inductive QueueCall where
  | push (node : NodeId) (bound : Float) (depth seq : Nat)
  | pop
  | erase (node : NodeId)
  | drain (cutoff : Float)

namespace QueueCall

def perform (queue : LeafQueue) : QueueCall → LeafQueue
  | push node bound depth seq => queue.push node bound depth seq
  | pop => (queue.pop?.map Prod.snd).getD queue
  | erase node => queue.erase node
  | drain cutoff => (queue.drain cutoff).2

/-- Whether the bound of a leaf that is queued is defined. -/
def Defined : QueueCall → Prop
  | push _ bound _ _ => bound.isNaN = false
  | _ => True

instance : DecidablePred Defined
  | push _ bound _ _ => inferInstanceAs (Decidable (bound.isNaN = false))
  | pop | erase _ | drain _ => isTrue trivial

end QueueCall

/-- A leaf as it was queued, and the number of leaves taken up before that. -/
structure Ticket where
  node : NodeId
  bound : Float
  depth : Nat
  seq : Nat
  taken : Nat
  deriving DecidableEq

namespace Ticket

variable {period : Nat} {ticket other : Ticket}

/-- Whether a leaf was ranked by its depth. -/
def dives (period : Nat) (ticket : Ticket) : Bool :=
  0 < period && ticket.taken % period = 0

/-- What a leaf is ranked by: its depth, or its bound, the lower the higher. -/
def rating (period : Nat) (ticket : Ticket) : Float :=
  if ticket.dives period then Float.ofNat ticket.depth else -ticket.bound

def entry (period : Nat) (ticket : Ticket) : QueuedLeaf :=
  ⟨ticket.node, ticket.bound, ticket.seq, ticket.rating period⟩

theorem rating_dives (dives : ticket.dives period = true) :
    ticket.rating period = Float.ofNat ticket.depth :=
  if_pos dives

theorem rating_stays (stays : ticket.dives period = false) :
    ticket.rating period = -ticket.bound :=
  if_neg (Bool.not_eq_true _ ▸ stays)

theorem rating_defined (defined : ticket.bound.isNaN = false) :
    (ticket.rating period).isNaN = false := by
  cases dives : ticket.dives period with
  | true =>
    rw [rating_dives dives]
    exact Double.isNaN_ofNat _
  | false =>
    rw [rating_stays dives, Double.isNaN_neg]
    exact defined

end Ticket

namespace LeafQueue

variable {period : Nat} {queue queue' : LeafQueue} {tickets : List Ticket}

/-- A queue that dives, and the tickets of its leaves. -/
structure Tickets (period : Nat) (queue : LeafQueue) (tickets : List Ticket) : Prop where
  selection : queue.selection = .hybrid period
  leaves : queue.leaves.Perm (tickets.map (·.entry period))
  defined : ∀ ticket ∈ tickets, ticket.bound.isNaN = false

end LeafQueue

/-- The tickets of the leaves that are queued after a call. -/
def QueueCall.punch (period : Nat) (queue : LeafQueue) (tickets : List Ticket) :
    QueueCall → List Ticket
  | push node bound depth seq => ⟨node, bound, depth, seq, queue.taken⟩ :: tickets
  | pop => tickets.eraseP fun ticket =>
      QueuedLeaf.best? queue.leaves = some (ticket.entry period)
  | erase node => tickets.filter (·.node != node)
  | drain cutoff => tickets.filter fun ticket => !(ticket.entry period).reaches cutoff

/-- A queue that dives and its tickets after some calls. -/
def LeafQueue.played (period : Nat) (calls : List QueueCall) : LeafQueue × List Ticket :=
  calls.foldl (fun s call => (call.perform s.1, call.punch period s.1 s.2))
    (.empty (.hybrid period), [])

namespace LeafQueue

variable {period : Nat} {queue queue' : LeafQueue} {tickets : List Ticket}

theorem Tickets.empty : Tickets period (.empty (.hybrid period)) [] :=
  ⟨rfl, .nil, nofun⟩

/-- The best entry is that of a ticket. -/
theorem Tickets.best (held : Tickets period queue tickets) {best : QueuedLeaf}
    (found : QueuedLeaf.best? queue.leaves = some best) :
    ∃ ticket ∈ tickets, ticket.entry period = best :=
  List.mem_map.1 (held.leaves.mem_iff.1 (QueuedLeaf.best?_mem found))

theorem pop?_eq_none : queue.pop? = none ↔ queue.leaves = [] := by
  unfold pop?
  rw [Option.map_eq_none_iff, QueuedLeaf.best?_eq_none]

theorem Tickets.pop (held : Tickets period queue tickets) :
    Tickets period (QueueCall.pop.perform queue) (QueueCall.pop.punch period queue tickets) := by
  unfold QueueCall.perform QueueCall.punch
  cases popped : queue.pop? with
  | none =>
    have none : QueuedLeaf.best? queue.leaves = none :=
      QueuedLeaf.best?_eq_none.2 (pop?_eq_none.1 popped)
    rw [none, List.eraseP_of_forall_not (by simp)]
    exact held
  | some next =>
    obtain ⟨id, queue'⟩ := next
    obtain ⟨best, found, _, parted, rest⟩ := queue.pop?_best popped
    rw [found]
    refine ⟨?_, ?_, fun ticket member => held.defined ticket (List.mem_of_mem_eraseP member)⟩
    · change queue'.selection = _
      rw [rest]
      exact held.selection
    · have remaining := (List.cons_perm_iff_perm_erase.1 (parted.trans held.leaves)).2
      rw [List.erase_eq_eraseP, List.eraseP_map] at remaining
      have same : (fun ticket : Ticket => decide (some best = some (ticket.entry period))) =
          (fun leaf => best == leaf) ∘ (·.entry period) := by
        funext ticket
        rw [Bool.eq_iff_iff, decide_eq_true_eq, Option.some.injEq]
        exact beq_iff_eq.symm
      rw [same]
      exact remaining

theorem Tickets.perform (held : Tickets period queue tickets) {call : QueueCall}
    (defined : call.Defined) :
    Tickets period (call.perform queue) (call.punch period queue tickets) := by
  obtain ⟨selection, leaves, bounds⟩ := held
  cases call with
  | push node bound depth seq =>
    refine ⟨selection, ?_, List.forall_mem_cons.2 ⟨defined, bounds⟩⟩
    have ranked : queue.priority bound depth =
        (⟨node, bound, depth, seq, queue.taken⟩ : Ticket).rating period := by
      unfold priority
      rw [selection]
      rfl
    refine (queue.push_perm node bound depth seq).trans ?_
    rw [ranked]
    exact leaves.cons _
  | pop => exact Tickets.pop ⟨selection, leaves, bounds⟩
  | erase node =>
    refine ⟨selection, (queue.erase_perm node).trans ?_,
      fun ticket member => bounds ticket (List.mem_of_mem_filter member)⟩
    have kept := leaves.filter (·.node != node)
    rw [List.filter_map] at kept
    exact kept
  | drain cutoff =>
    refine ⟨selection, (queue.drain_perm cutoff).trans ?_,
      fun ticket member => bounds ticket (List.mem_of_mem_filter member)⟩
    have kept := leaves.filter (!·.reaches cutoff)
    rw [List.filter_map] at kept
    exact kept

theorem played_concat (period : Nat) (calls : List QueueCall) (call : QueueCall) :
    played period (calls ++ [call]) = (call.perform (played period calls).1,
      call.punch period (played period calls).1 (played period calls).2) := by
  unfold played
  rw [List.foldl_append, List.foldl_cons, List.foldl_nil]

/-- After any calls each leaf that is queued has a ticket. -/
theorem played_tickets (period : Nat) {calls : List QueueCall}
    (defined : ∀ call ∈ calls, call.Defined) :
    Tickets period (played period calls).1 (played period calls).2 := by
  induction calls using List.reverseRecOn with
  | nil => exact .empty
  | append_singleton calls call ih =>
    obtain ⟨earlier, last⟩ := List.forall_mem_append.1 defined
    rw [played_concat]
    exact (ih earlier).perform (last call List.mem_cons_self)

end LeafQueue

namespace Ticket

/-- A leaf is one of the deepest of some, or one of the lowest. -/
def Extreme (ticket : Ticket) (tickets : List Ticket) : Prop :=
  (∀ other ∈ tickets, other.depth < 2 ^ 53 → other.depth ≤ ticket.depth) ∨
    ∀ other ∈ tickets, ticket.bound ≤ other.bound

instance (ticket : Ticket) (tickets : List Ticket) : Decidable (ticket.Extreme tickets) :=
  inferInstanceAs (Decidable (_ ∨ _))

/-- A leaf ranks highest, the youngest one of those that do. If it was ranked by its depth it is
one of the deepest of the leaves that were, and if it was ranked by its bound it is one of the
lowest of those. -/
structure Leads (period : Nat) (tickets : List Ticket) (ticket : Ticket) : Prop where
  first : ∀ other ∈ tickets, other.rating period ≤ ticket.rating period
  youngest : ∀ other ∈ tickets, ticket.rating period ≤ other.rating period → other.seq ≤ ticket.seq
  deepest : ticket.dives period = true → ∀ other ∈ tickets, other.dives period = true →
    other.depth < 2 ^ 53 → other.depth ≤ ticket.depth
  lowest : ticket.dives period = false → ∀ other ∈ tickets, other.dives period = false →
    ticket.bound ≤ other.bound

variable {period : Nat} {tickets : List Ticket} {ticket : Ticket}

theorem leads_of_rank (defined : ∀ other ∈ tickets, other.bound.isNaN = false)
    (member : ticket ∈ tickets)
    (ranked : ∀ other ∈ tickets, (other.entry period).rank ≤ (ticket.entry period).rank) :
    ticket.Leads period tickets := by
  have first : ∀ other ∈ tickets, other.rating period ≤ ticket.rating period := by
    intro other there
    have above := Prod.Lex.monotone_fst _ _ (ranked other there)
    exact Double.le_iff.2 ⟨rating_defined (defined other there),
      rating_defined (defined ticket member), above⟩
  refine ⟨first, fun other there most => ?_, fun dives other there alike small => ?_,
    fun stays other there alike => ?_⟩
  · obtain below | ⟨_, older⟩ := Prod.Lex.toLex_le_toLex.1 (ranked other there)
    · exact absurd below (Double.le_iff.1 most).2.2.not_gt
    · exact older
  · have most := first other there
    rw [rating_dives dives, rating_dives alike] at most
    by_contra deeper
    exact Double.not_lt_of_le most (Double.ofNat_lt (Nat.lt_of_not_le deeper) small)
  · have most := first other there
    rw [rating_stays stays, rating_stays alike] at most
    refine Double.le_of_not_lt (defined other there) (defined ticket member) fun less => ?_
    exact Double.not_lt_of_le most (Double.neg_lt_neg_iff.2 less)

/-- Where all leaves are ranked alike, the one that leads is extreme among all of them. -/
theorem Leads.extreme (leads : ticket.Leads period tickets)
    (alike : ∀ other ∈ tickets, other.dives period = ticket.dives period) :
    ticket.Extreme tickets := by
  cases dives : ticket.dives period with
  | true =>
    exact .inl fun other there small =>
      leads.deepest dives other there ((alike other there).trans dives) small
  | false =>
    exact .inr fun other there =>
      leads.lowest dives other there ((alike other there).trans dives)

end Ticket

/-- The first leaf is ranked by its depth, the last one by its bound. -/
def dipping : List QueueCall :=
  [.push ⟨0, 0⟩ 100 3 1, .push ⟨1, 0⟩ 200 9 2, .pop, .push ⟨2, 0⟩ (-1) 7 3]

end BranchCutPrice
