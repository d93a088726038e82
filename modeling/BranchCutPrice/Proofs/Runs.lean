import BranchCutPrice.Proofs.Steps

/-!
Runs of the world: calls in any order, as far as a rule allows them. A run begins with an
empty relaxation and with structures that hold nothing yet.
-/

namespace BranchCutPrice

open Relaxation

variable {ι : Type} [Inhabited ι]

/-! ### The beginning -/

/-- Everything is as its constructor left it. -/
structure World.Fresh (w : World ι) : Prop where
  session : ∃ settings, Session.ofSettings settings .empty = .ok w.session
  client : w.client = 0
  trees : ∀ p, ∃ settings, w.trees p = .empty settings
  rowPools : ∀ p, ∃ key ageLimit, w.rowPools p = .empty key ageLimit
  cutPools : ∀ p, ∃ settings, CutPool.ofSettings settings = .ok (w.cutPools p)
  cutRounds : ∀ p, w.cutRounds p = .empty

theorem CutPool.ofSettings_ok {settings : PoolSettings} {pool : CutPool}
    (built : CutPool.ofSettings settings = .ok pool) :
    ∃ key ageLimit, pool.pool = .empty key ageLimit := by
  unfold CutPool.ofSettings Pool.reserve at built
  by_cases fits : settings.capacity < Pool.capacityLimit
  · simp only [fits] at built
    cases built
    exact ⟨_, _, rfl⟩
  · simp only [fits] at built
    cases built

theorem ColumnPool.ofSettings_ok {settings : PoolSettings} {pool : ColumnPool}
    (built : ColumnPool.ofSettings settings = .ok pool) :
    ∃ key ageLimit, pool.pool = .empty key ageLimit := by
  unfold ColumnPool.ofSettings Pool.reserve at built
  by_cases fits : settings.capacity < Pool.capacityLimit
  · simp only [fits] at built
    cases built
    exact ⟨_, _, rfl⟩
  · simp only [fits] at built
    cases built

theorem CutPool.holdings_ofSettings {settings : PoolSettings} {pool : CutPool}
    (built : CutPool.ofSettings settings = .ok pool) : Holder.holdings pool = 0 := by
  obtain ⟨key, ageLimit, empty⟩ := ofSettings_ok built
  change Holdings.ofRows pool.pool.handles = 0
  rw [empty]
  rfl

theorem ColumnPool.holdings_ofSettings {settings : PoolSettings} {pool : ColumnPool}
    (built : ColumnPool.ofSettings settings = .ok pool) : Holder.holdings pool = 0 := by
  obtain ⟨key, ageLimit, empty⟩ := ofSettings_ok built
  change Holdings.ofColumns pool.pool.handles = 0
  rw [empty]
  rfl

theorem Session.ofSettings_ok {settings : SessionSettings} {lp : Relaxation} {s : Session}
    (built : Session.ofSettings settings lp = .ok s) :
    s.lp = lp ∧ ColumnPool.ofSettings settings.columnPool = .ok s.columnPool ∧
      s.columns = .empty settings.pricing := by
  unfold Session.ofSettings at built
  cases cutPool : CutPool.ofSettings settings.cutPool with
  | error => simp [cutPool, bind, Except.bind] at built
  | ok cuts =>
    cases columnPool : ColumnPool.ofSettings settings.columnPool with
    | error => simp [cutPool, columnPool, bind, Except.bind] at built
    | ok columns =>
      rw [cutPool, columnPool] at built
      cases built
      exact ⟨rfl, rfl, rfl⟩

/-- Trees that were never used hold nothing. -/
theorem Tree.holdings_empty (settings : TreeSettings) :
    Holder.holdings (Tree.empty settings) = 0 := by
  change nodeHoldings .empty = 0
  exact SlotTable.total_empty _

namespace World.Fresh

variable {w : World ι}

theorem lp (fresh : w.Fresh) : w.lp = .empty := by
  obtain ⟨settings, built⟩ := fresh.session
  exact (Session.ofSettings_ok built).1

variable [Fintype ι]

theorem held (fresh : w.Fresh) : Ledger.held w = 0 := by
  obtain ⟨settings, built⟩ := fresh.session
  obtain ⟨_, columnPool, columns⟩ := Session.ofSettings_ok built
  have trees : Holder.holdings w.trees = 0 := by
    apply Finset.sum_eq_zero
    intro p _
    obtain ⟨settings, empty⟩ := fresh.trees p
    rw [empty]
    exact Tree.holdings_empty settings
  have rowPools : Holder.holdings w.rowPools = 0 := by
    apply Finset.sum_eq_zero
    intro p _
    obtain ⟨key, ageLimit, empty⟩ := fresh.rowPools p
    rw [empty]
    rfl
  have cutPools : Holder.holdings w.cutPools = 0 := by
    apply Finset.sum_eq_zero
    intro p _
    obtain ⟨settings, built⟩ := fresh.cutPools p
    exact CutPool.holdings_ofSettings built
  have cutRounds : Holder.holdings w.cutRounds = 0 := by
    apply Finset.sum_eq_zero
    intro p _
    rw [fresh.cutRounds p]
    rfl
  change w.client + Holder.holdings w.trees + Holder.holdings w.rowPools +
    Holder.holdings w.cutPools + Holder.holdings w.cutRounds +
    Holder.holdings w.columnPool + Holder.holdings w.columns = 0
  rw [fresh.client, trees, rowPools, cutPools, cutRounds]
  have pool : Holder.holdings w.columnPool = 0 := ColumnPool.holdings_ofSettings columnPool
  have round : w.columns = .empty settings.pricing := columns
  rw [pool, round]
  rfl

theorem kept (fresh : w.Fresh) : w.Kept 0 := by
  constructor
  · change w.lp.Balanced (0 + Ledger.held w)
    rw [fresh.lp, fresh.held, zero_add]
    exact balanced_empty
  · intro p
    obtain ⟨settings, empty⟩ := fresh.trees p
    unfold World.desk
    rw [empty]
    exact .empty settings _
  · constructor
    · rw [fresh.lp]
      exact ⟨Nat.two_pow_pos 32, Nat.two_pow_pos 32, Nat.two_pow_pos 32⟩
    · intro p
      obtain ⟨settings, empty⟩ := fresh.trees p
      rw [empty]
      exact Nat.two_pow_pos 32

end World.Fresh

/-! ### Calls in any order -/

variable [Fintype ι] [DecidableEq ι]

/-- What a client may call in which world. -/
abbrev Rule (ι : Type) : Type :=
  World ι → Call ι → Prop

/-- Any number of calls that a rule allows. -/
def Run (rule : Rule ι) : World ι → World ι → Prop :=
  Relation.ReflTransGen fun w w' => ∃ call, rule w call ∧ Step call w w'

def Reachable (rule : Rule ι) (w : World ι) : Prop :=
  ∃ start : World ι, start.Fresh ∧ Run rule start w

variable {rule : Rule ι} {w w' : World ι} {owed : Holdings}

theorem Run.kept (run : Run rule w w') (kept : w.Kept owed) :
    ∃ lost, w'.Kept (owed + lost) ∧ lost.bases = 0 ∧
      ((∀ w call, rule w call → call.Timely w) → lost.rows = 0) := by
  induction run with
  | refl =>
    refine ⟨0, ?_, rfl, fun _ => rfl⟩
    rw [add_zero]
    exact kept
  | tail _ last ih =>
    obtain ⟨call, allowed, step⟩ := last
    obtain ⟨earlier, kept', bases, rows⟩ := ih
    obtain ⟨lost, kept'', _, bases', rows'⟩ := step.kept kept'
    refine ⟨earlier + lost, ?_, ?_, fun timely => ?_⟩
    · rw [← add_assoc]
      exact kept''
    · simp [bases, bases']
    · simp [rows timely, rows' (timely _ call allowed)]

omit [Fintype ι] in
theorem Reachable.step {call : Call ι} (reached : Reachable rule w) (allowed : rule w call)
    (step : Step call w w') : Reachable rule w' := by
  obtain ⟨start, fresh, run⟩ := reached
  exact ⟨start, fresh, .tail run ⟨call, allowed, step⟩⟩

theorem Reachable.kept (reached : Reachable rule w) :
    ∃ lost, w.Kept lost ∧ lost.bases = 0 ∧
      ((∀ w call, rule w call → call.Timely w) → lost.rows = 0) := by
  obtain ⟨start, fresh, run⟩ := reached
  obtain ⟨lost, kept, bases, rows⟩ := run.kept fresh.kept
  rw [zero_add] at kept
  exact ⟨lost, kept, bases, rows⟩

/-- To a tree of a reachable world the rest is owed elsewhere. -/
theorem Reachable.linked (reached : Reachable rule w) (p : ι) :
    ∃ owed, Settled (Linked.mk (w.trees p) w.lp) owed ∧
      (Linked.mk (w.trees p) w.lp).desk.Shaped := by
  obtain ⟨_, kept, _⟩ := reached.kept
  obtain ⟨rest, settled, _⟩ := (World.treeAt_frames p).enter kept.settled
  exact ⟨_, settled, kept.shaped p⟩

/-- To the session of a reachable world the rest is owed elsewhere. -/
theorem Reachable.session (reached : Reachable rule w) :
    ∃ owed, Settled w.session owed ∧ w.session.desk.Shaped ∧ w.Roomy := by
  obtain ⟨_, kept, _⟩ := reached.kept
  obtain ⟨rest, settled, _⟩ := World.sessionPart_frames.enter kept.settled
  exact ⟨_, settled, kept.shaped default, kept.roomy⟩

/-- Along a run the world is kept, so what every step from such a world preserves stays. -/
theorem Run.preserves {P : World ι → Prop} (run : Run rule w w') (kept : w.Kept owed)
    (step : ∀ w w' call owed, w.Kept owed → rule w call → Step call w w' → P w → P w')
    (start : P w) : P w' := by
  induction run with
  | refl => exact start
  | tail earlier last ih =>
    obtain ⟨call, allowed, one⟩ := last
    obtain ⟨lost, kept', _⟩ := Run.kept earlier kept
    exact step _ _ call _ kept' allowed one ih

/-! ### Lists of calls -/

/-- The world after some calls. -/
def World.after (w : World ι) (calls : List (Call ι)) : World ι :=
  calls.foldl (fun w call => (call.perform w).state) w

/-- Every one of some calls may be made when its turn comes. -/
def Plays (rule : Rule ι) : World ι → List (Call ι) → Prop
  | _, [] => True
  | w, call :: rest =>
      rule w call ∧ call.Permitted w ∧ (call.perform w).state.Roomy ∧
        Plays rule (call.perform w).state rest

instance Plays.decide (rule : Rule ι) [∀ w call, Decidable (rule w call)] :
    (w : World ι) → (calls : List (Call ι)) → Decidable (Plays rule w calls)
  | _, [] => isTrue trivial
  | w, call :: rest =>
      have := Plays.decide rule (call.perform w).state rest
      inferInstanceAs (Decidable (_ ∧ _ ∧ _ ∧ _))

omit [Fintype ι] in
theorem World.after_concat (calls : List (Call ι)) (last : Call ι) :
    w.after (calls ++ [last]) = (last.perform (w.after calls)).state := by
  unfold World.after
  rw [List.foldl_append]
  rfl

omit [Fintype ι] in
/-- The last call is made in the world after the others. -/
theorem Plays.concat_iff {calls : List (Call ι)} {last : Call ι} :
    Plays rule w (calls ++ [last]) ↔ Plays rule w calls ∧ rule (w.after calls) last ∧
      last.Permitted (w.after calls) ∧ (w.after (calls ++ [last])).Roomy := by
  rw [World.after_concat]
  induction calls generalizing w with
  | nil => simp [Plays, World.after]
  | cons call rest ih =>
    change _ ∧ _ ∧ _ ∧ Plays rule _ (rest ++ [last]) ↔ (_ ∧ _ ∧ _ ∧ Plays rule _ rest) ∧ _
    rw [ih]
    simp only [and_assoc]
    rfl

omit [Fintype ι] in
theorem Plays.run {calls : List (Call ι)} (plays : Plays rule w calls) :
    Run rule w (w.after calls) := by
  induction calls generalizing w with
  | nil => exact .refl
  | cons call rest ih =>
    obtain ⟨allowed, permitted, roomy, later⟩ := plays
    exact .head ⟨call, allowed, rfl, permitted, roomy⟩ (ih later)

/-- One structure of each sort, with default settings. -/
def World.initial : World Unit where
  lp := .empty
  client := 0
  trees _ := .empty {}
  rowPools _ := .empty (Row.key 1e-9) 100
  cutPools _ := ⟨.empty (Row.key 1e-9) 100, 1e-6⟩
  cutRounds _ := .empty
  columnPool := ⟨.empty (Column.key 1e-9) 10, 1e-6⟩
  columns := .empty {}
  incumbent := .empty
  processed := 0
  pruned := 0
  cutsAdded := 0
  columnsAdded := 0
  settings := {}

theorem World.initial_fresh : World.initial.Fresh where
  session := ⟨{}, rfl⟩
  client := rfl
  trees _ := ⟨{}, rfl⟩
  rowPools _ := ⟨_, _, rfl⟩
  cutPools _ := ⟨{}, rfl⟩
  cutRounds _ := rfl

theorem Plays.reachable {rule : Rule Unit} {calls : List (Call Unit)}
    (plays : Plays rule World.initial calls) : Reachable rule (World.initial.after calls) :=
  ⟨World.initial, World.initial_fresh, plays.run⟩

/-- Creates a root, makes it the focus and adds a row to it. -/
def rooting : List (Call Unit) :=
  [.client (.createRow ⟨"cut", ⟨1, []⟩, 0, 1, false⟩), .client .snapshotBasis,
    .tree () (.createRoot ⟨0, 0⟩), .tree () (.focusOn ⟨0, 0⟩),
    .tree () (.addRow ⟨0, 0⟩ ⟨0, 0⟩)]

/-- Promotes the root and creates two leaves below it. -/
def branching : List (Call Unit) :=
  [.tree () (.promote ⟨0, 0⟩), .tree () (.createLeaf ⟨0, 0⟩ ⟨0, 0⟩),
    .tree () (.createLeaf ⟨0, 0⟩ ⟨0, 0⟩), .client (.releaseBasis ⟨0, 0⟩)]

end BranchCutPrice
