import BranchCutPrice.Proofs.Runs
import BranchCutPrice.Proofs.PoolRuns

/-!
A world with a market of columns beside it: pools of columns and pricing rounds in any
number of places. The session has a pool and a round of its own. Each call keeps the market
settled but for the columns that a round drops, which nobody will release any more.
-/

namespace BranchCutPrice

open BranchCutPrice.Action Relaxation

structure Market (ι : Type) where
  world : World ι
  pools : ι → Pool .column Column
  columnPools : ι → ColumnPool
  rounds : ι → PricingRound

variable {owed : Holdings}

/-! ### Calls -/

inductive ColumnPoolCall where
  | add (column : ColumnId)
  | addNew (column : ColumnId)
  | remove (column : ColumnId)
  | scan (mode : PricingMode)
  | clear

inductive PricingCall where
  | add (column : ColumnId) (reducedCost : Float) (forced : Bool)
  | updateOrthogonality (admitted : ColumnId)
  | selectBest (quota : Nat)
  | clear

namespace ColumnPoolCall

def perform : ColumnPoolCall → Action (Linked ColumnPool) Unit
  | add column => discard (ColumnPool.add column)
  | addNew column => ColumnPool.addNew column
  | remove column => ColumnPool.remove column
  | scan mode => discard (ColumnPool.scan mode)
  | clear => ColumnPool.clear

theorem perform_reaches (call : ColumnPoolCall) {s : Linked ColumnPool}
    (settled : Settled s owed) :
    call.perform.Reaches s fun s' => Settled s' owed ∧ Still s.lp s'.lp := by
  cases call with
  | add column => exact discard_reaches.2 (ColumnPool.add_reaches settled column)
  | addNew column => exact ColumnPool.addNew_reaches settled column
  | remove column => exact ColumnPool.remove_reaches settled column
  | scan mode => exact discard_reaches.2 (ColumnPool.scan_reaches settled mode)
  | clear => exact ColumnPool.clear_reaches settled

end ColumnPoolCall

namespace PricingCall

def perform : PricingCall → Action (Linked PricingRound) Unit
  | add column reducedCost forced => PricingRound.add column reducedCost forced
  | updateOrthogonality admitted => PricingRound.updateOrthogonality admitted
  | selectBest quota => discard (PricingRound.selectBest quota)
  | clear => PricingRound.clear

/-- The columns that a call loses sight of. -/
def dropped (s : Linked PricingRound) : PricingCall → Multiset ColumnId
  | selectBest quota => PricingRound.dropped quota s
  | _ => 0

theorem perform_reaches (call : PricingCall) {s : Linked PricingRound}
    (settled : Settled s owed) :
    call.perform.Reaches s fun s' =>
      Settled s' (owed + .ofColumns (call.dropped s)) ∧ s'.lp.loadedRows = s.lp.loadedRows := by
  have whole : owed + .ofColumns 0 = owed := add_zero owed
  cases call with
  | add column reducedCost forced =>
    apply (PricingRound.add_reaches settled column reducedCost forced).imp
    all_goals
      intro _ _ added
      exact ⟨whole.symm ▸ added.1, added.2.loadedRows⟩
  | updateOrthogonality admitted =>
    apply (PricingRound.updateOrthogonality_strands settled admitted).imp
    all_goals
      intro _ _ updated
      exact ⟨updated.settled, updated.rows⟩
  | selectBest quota =>
    apply discard_reaches.2
    apply (PricingRound.selectBest_reaches settled quota).imp
    all_goals
      intro _ _ closed
      exact ⟨closed.settled, closed.rows⟩
  | clear =>
    apply Completes.leads (PricingRound.clear_ensures settled)
    intro _ _ cleared
    exact ⟨whole.symm ▸ cleared.1, cleared.2.2.loadedRows⟩

end PricingCall

/-! ### Parts -/

variable {ι : Type}

namespace Market

instance [Fintype ι] : Ledger (Market ι) where
  lp m := m.world.lp
  held m := Ledger.held m.world + Holder.holdings m.pools + Holder.holdings m.columnPools +
    Holder.holdings m.rounds

/-- The market with another relaxation. -/
def withLp (m : Market ι) (lp : Relaxation) : Market ι :=
  { m with world := { m.world with lp := lp } }

def worldPart : Part (Market ι) (World ι) where
  get m := m.world
  set m w := { m with world := w }

variable [DecidableEq ι]

def poolAt (p : ι) : Part (Market ι) (Linked (Pool .column Column)) where
  get m := ⟨m.pools p, m.world.lp⟩
  set m s := { m.withLp s.lp with pools := Function.update m.pools p s.own }

def columnPoolAt (p : ι) : Part (Market ι) (Linked ColumnPool) where
  get m := ⟨m.columnPools p, m.world.lp⟩
  set m s := { m.withLp s.lp with columnPools := Function.update m.columnPools p s.own }

def roundAt (p : ι) : Part (Market ι) (Linked PricingRound) where
  get m := ⟨m.rounds p, m.world.lp⟩
  set m s := { m.withLp s.lp with rounds := Function.update m.rounds p s.own }

/-- A pool of columns and a round. -/
def pricing (p q : ι) : Part (Market ι) (Linked (ColumnPool × PricingRound)) where
  get m := ⟨(m.columnPools p, m.rounds q), m.world.lp⟩
  set m s := { m.withLp s.lp with
    columnPools := Function.update m.columnPools p s.own.1
    rounds := Function.update m.rounds q s.own.2 }

variable [Fintype ι]

omit [DecidableEq ι] in
theorem worldPart_frames : (worldPart : Part (Market ι) _).Frames where
  lp_get _ := rfl
  lp_set _ _ := rfl
  rest m := by
    refine ⟨Holder.holdings m.pools + Holder.holdings m.columnPools + Holder.holdings m.rounds,
      ?_, fun w => ?_⟩
    · dsimp only [Ledger.held, worldPart]
      abel
    · dsimp only [Ledger.held, worldPart]
      abel

theorem poolAt_frames (p : ι) : (poolAt p).Frames where
  lp_get _ := rfl
  lp_set _ _ := rfl
  rest m := by
    obtain ⟨rest, here, there⟩ := holdings_update m.pools p
    refine ⟨Ledger.held m.world + rest + Holder.holdings m.columnPools +
      Holder.holdings m.rounds, ?_, fun s => ?_⟩
    · dsimp only [Ledger.held, poolAt]
      rw [here]
      abel
    · dsimp only [Ledger.held, poolAt, withLp]
      rw [there]
      abel

theorem columnPoolAt_frames (p : ι) : (columnPoolAt p).Frames where
  lp_get _ := rfl
  lp_set _ _ := rfl
  rest m := by
    obtain ⟨rest, here, there⟩ := holdings_update m.columnPools p
    refine ⟨Ledger.held m.world + Holder.holdings m.pools + rest + Holder.holdings m.rounds,
      ?_, fun s => ?_⟩
    · dsimp only [Ledger.held, columnPoolAt]
      rw [here]
      abel
    · dsimp only [Ledger.held, columnPoolAt, withLp]
      rw [there]
      abel

theorem roundAt_frames (p : ι) : (roundAt p).Frames where
  lp_get _ := rfl
  lp_set _ _ := rfl
  rest m := by
    obtain ⟨rest, here, there⟩ := holdings_update m.rounds p
    refine ⟨Ledger.held m.world + Holder.holdings m.pools + Holder.holdings m.columnPools + rest,
      ?_, fun s => ?_⟩
    · dsimp only [Ledger.held, roundAt]
      rw [here]
      abel
    · dsimp only [Ledger.held, roundAt, withLp]
      rw [there]
      abel

theorem pricing_frames (p q : ι) : (pricing p q).Frames where
  lp_get _ := rfl
  lp_set _ _ := rfl
  rest m := by
    obtain ⟨pools, herePools, therePools⟩ := holdings_update m.columnPools p
    obtain ⟨rounds, hereRounds, thereRounds⟩ := holdings_update m.rounds q
    refine ⟨Ledger.held m.world + Holder.holdings m.pools + pools + rounds, ?_, fun s => ?_⟩
    · dsimp only [Ledger.held, pricing]
      rw [herePools, hereRounds]
      dsimp only [Holder.holdings]
      abel
    · dsimp only [Ledger.held, pricing, withLp]
      rw [therePools, thereRounds]
      dsimp only [Holder.holdings]
      abel

end Market

/-! ### Calls on the market -/

inductive MarketCall (ι : Type) where
  | world (call : Call ι)
  | pool (p : ι) (call : StockCall .column Column)
  | columnPool (p : ι) (call : ColumnPoolCall)
  | round (p : ι) (call : PricingCall)
  /-- The pool at one place hands columns to the round at another one. -/
  | price (p q : ι) (mode : PricingMode)

variable [DecidableEq ι] [Inhabited ι]

namespace MarketCall

open Market

def perform : MarketCall ι → Action (Market ι) Unit
  | world call => worldPart.run call.perform
  | pool p call => (poolAt p).run (columnStock.run call.perform)
  | columnPool p call => (columnPoolAt p).run call.perform
  | round p call => (roundAt p).run call.perform
  | price p q mode => (pricing p q).run (discard (ColumnPool.price mode))

/-- The client releases only what it holds itself. -/
def Permitted (m : Market ι) : MarketCall ι → Prop
  | world call => call.Permitted m.world
  | _ => True

instance (m : Market ι) : (call : MarketCall ι) → Decidable (call.Permitted m)
  | world call => inferInstanceAs (Decidable (call.Permitted m.world))
  | pool _ _ | columnPool _ _ | round _ _ | price _ _ _ => isTrue trivial

/-- The columns that a call loses sight of. -/
def dropped (m : Market ι) : MarketCall ι → Multiset ColumnId
  | world call => call.dropped m.world
  | round p call => call.dropped ⟨m.rounds p, m.world.lp⟩
  | _ => 0

end MarketCall

namespace Market

variable [Fintype ι]

/-- What every call keeps. -/
structure Kept (m : Market ι) (owed : Holdings) : Prop where
  settled : Settled m owed
  shaped : ∀ p, (m.world.desk p).Shaped
  roomy : m.world.Roomy

variable {m : Market ι}

omit [DecidableEq ι] [Inhabited ι] in
/-- What an operation beside the world loses is lost to the market. The desks stay. -/
theorem beside_reaches {τ : Type} [Holder τ] {part : Part (Market ι) (Linked τ)}
    {act : Action (Linked τ) Unit} (frames : part.Frames)
    (trees : ∀ m s, (part.set m s).world.trees = m.world.trees) (kept : m.Kept owed)
    {lost : Holdings}
    (keeps : ∀ owed, Settled (part.get m) owed → act.Reaches (part.get m) fun s =>
      Settled s (owed + lost) ∧ s.lp.loadedRows = (part.get m).lp.loadedRows) :
    (part.run act).Reaches m fun m' =>
      Settled m' (owed + lost) ∧ ∀ q, (m'.world.desk q).Shaped := by
  apply (frames.loses kept.settled keeps).imp
  all_goals
    intro _ m' done
    obtain ⟨settled', s, rfl, rows⟩ := done
    refine ⟨settled', fun q => ?_⟩
    have lpGet : (part.get m).lp = m.world.lp := frames.lp_get m
    have lpSet : (part.set m s).world.lp = s.lp := frames.lp_set m s
    have desk : (part.set m s).world.desk q = m.world.desk q := by
      unfold World.desk
      rw [trees, lpSet, rows, lpGet]
    rw [desk]
    exact kept.shaped q

end Market

namespace MarketCall

open Market

variable [Fintype ι] {m : Market ι}

/-- A call may lose the columns that it drops, and rows, but nothing else. -/
theorem perform_reaches (call : MarketCall ι) (kept : m.Kept owed) (permitted : call.Permitted m) :
    call.perform.Reaches m fun m' => ∃ lost, Settled m' (owed + lost) ∧
      lost.columns = call.dropped m ∧ (m'.world.Roomy → ∀ q, (m'.world.desk q).Shaped) := by
  have beside {act : Action (Market ι) Unit}
      (keeps : act.Reaches m fun m' =>
        Settled m' (owed + .ofColumns (call.dropped m)) ∧ ∀ q, (m'.world.desk q).Shaped) :
      act.Reaches m fun m' => ∃ lost, Settled m' (owed + lost) ∧
        lost.columns = call.dropped m ∧ (m'.world.Roomy → ∀ q, (m'.world.desk q).Shaped) := by
    apply keeps.imp
    all_goals
      intro _ _ done
      exact ⟨_, done.1, rfl, fun _ => done.2⟩
  have still {τ : Type} [Holder τ] {act : Action (Linked τ) Unit} {s : Linked τ} {owed : Holdings}
      (keeps : act.Reaches s fun s' => Settled s' owed ∧ Still s.lp s'.lp) :
      act.Reaches s fun s' =>
        Settled s' (owed + .ofColumns 0) ∧ s'.lp.loadedRows = s.lp.loadedRows := by
    apply keeps.imp
    all_goals
      intro _ _ done
      rw [show owed + .ofColumns 0 = owed from add_zero owed]
      exact ⟨done.1, done.2.loadedRows⟩
  cases call with
  | world call =>
    have performed (owed : Holdings) (inside : Settled m.world owed) :=
      call.perform_reaches ⟨inside, kept.shaped, kept.roomy⟩ permitted
    apply (worldPart_frames.bereft kept.settled performed).imp
    all_goals
      intro _ m' done
      obtain ⟨⟨lost, settled, columns, _⟩, w, rfl, moves⟩ := done
      exact ⟨lost, settled, columns, fun roomy q =>
        (moves q).shaped (kept.shaped q) (roomy.nodes q).fits⟩
  | pool p call =>
    exact beside (Market.beside_reaches (poolAt_frames p) (fun _ _ => rfl) kept
      fun _ inside => still (columnStock_reaches inside fun _ balanced =>
        call.perform_balanced balanced))
  | columnPool p call =>
    exact beside (Market.beside_reaches (columnPoolAt_frames p) (fun _ _ => rfl) kept
      fun _ inside => still (call.perform_reaches inside))
  | round p call =>
    exact beside (Market.beside_reaches (roundAt_frames p) (fun _ _ => rfl) kept
      fun _ inside => call.perform_reaches inside)
  | price p q mode =>
    exact beside (Market.beside_reaches (pricing_frames p q) (fun _ _ => rfl) kept
      fun _ inside => still (discard_reaches.2 (ColumnPool.price_reaches inside mode)))

end MarketCall

namespace Market

/-! ### Runs -/

/-- Everything is as its constructor left it. -/
structure Fresh (m : Market ι) : Prop where
  world : m.world.Fresh
  pools : ∀ p, ∃ key ageLimit, m.pools p = .empty key ageLimit
  columnPools : ∀ p, ∃ settings, ColumnPool.ofSettings settings = .ok (m.columnPools p)
  rounds : ∀ p, ∃ settings, m.rounds p = .empty settings

variable [Fintype ι] {m : Market ι}

omit [DecidableEq ι] in
theorem Fresh.kept (fresh : m.Fresh) : m.Kept 0 := by
  have pools : Holder.holdings m.pools = 0 := by
    apply Finset.sum_eq_zero
    intro p _
    obtain ⟨key, ageLimit, empty⟩ := fresh.pools p
    rw [empty]
    rfl
  have columnPools : Holder.holdings m.columnPools = 0 := by
    apply Finset.sum_eq_zero
    intro p _
    obtain ⟨settings, built⟩ := fresh.columnPools p
    exact ColumnPool.holdings_ofSettings built
  have rounds : Holder.holdings m.rounds = 0 := by
    apply Finset.sum_eq_zero
    intro p _
    obtain ⟨settings, empty⟩ := fresh.rounds p
    rw [empty]
    rfl
  have held : Ledger.held m = Ledger.held m.world := by
    change Ledger.held m.world + _ + _ + _ = _
    rw [pools, columnPools, rounds, add_zero, add_zero, add_zero]
  have world := fresh.world.kept
  refine ⟨?_, world.shaped, world.roomy⟩
  change m.world.lp.Balanced (0 + Ledger.held m)
  rw [held]
  exact world.settled

/-- What calls on a fresh market lead to, refused ones among them, and the columns that they
dropped on the way. -/
inductive Reached : Market ι → Multiset ColumnId → Prop where
  | fresh {m : Market ι} : m.Fresh → Reached m 0
  | step {m : Market ι} {stranded : Multiset ColumnId} (call : MarketCall ι) :
      Reached m stranded → call.Permitted m → (call.perform m).state.world.Roomy →
        Reached (call.perform m).state (stranded + call.dropped m)

theorem Reached.kept {stranded : Multiset ColumnId} (reached : Reached m stranded) :
    ∃ lost : Holdings, m.Kept lost ∧ lost.columns = stranded := by
  induction reached with
  | fresh fresh => exact ⟨0, fresh.kept, rfl⟩
  | step call _ permitted roomy ih =>
    obtain ⟨earlier, kept, columns⟩ := ih
    obtain ⟨lost, settled, dropped, shaped⟩ :=
      reaches_iff.1 (call.perform_reaches kept permitted)
    refine ⟨earlier + lost, ⟨settled, shaped roomy, roomy⟩, ?_⟩
    rw [Holdings.columns_add, columns, dropped]

section Plays

omit [Fintype ι]

/-- The market after some calls. -/
def after (m : Market ι) (calls : List (MarketCall ι)) : Market ι :=
  calls.foldl (fun m call => (call.perform m).state) m

theorem after_nil (m : Market ι) : m.after [] = m :=
  rfl

theorem after_concat (calls : List (MarketCall ι)) (last : MarketCall ι) :
    m.after (calls ++ [last]) = (last.perform (m.after calls)).state := by
  unfold after
  rw [List.foldl_append]
  rfl

/-- Every one of some calls may be made when its turn comes. -/
def Plays : Market ι → List (MarketCall ι) → Prop
  | _, [] => True
  | m, call :: rest =>
      call.Permitted m ∧ (call.perform m).state.world.Roomy ∧ Plays (call.perform m).state rest

instance Plays.decide : (m : Market ι) → (calls : List (MarketCall ι)) → Decidable (Plays m calls)
  | _, [] => isTrue trivial
  | m, call :: rest =>
      have := Plays.decide (call.perform m).state rest
      inferInstanceAs (Decidable (_ ∧ _ ∧ _))

theorem Plays.reached {calls : List (MarketCall ι)} {stranded : Multiset ColumnId}
    (plays : m.Plays calls) (reached : m.Reached stranded) :
    ∃ stranded, (m.after calls).Reached stranded := by
  induction calls generalizing m stranded with
  | nil => exact ⟨_, reached⟩
  | cons call rest ih =>
    obtain ⟨permitted, roomy, later⟩ := plays
    exact ih later (reached.step call permitted roomy)

end Plays

end Market

end BranchCutPrice
