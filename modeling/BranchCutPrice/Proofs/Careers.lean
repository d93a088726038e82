import BranchCutPrice.Proofs.Retention

/-!
The careers of pool entries. Beside a pool it is written down what was said of every entry since
it was added. A career begins when an entry is appended, goes where its entry goes and ends when
its entry is taken out; every verdict that is given at a place goes into the career at that
place. The ages of the entries are not looked at.
-/

namespace BranchCutPrice

variable {kind : Kind} {α : Type}

/-! ### Verdicts -/

def Verdict.isUseful : Verdict → Bool
  | useful _ => true
  | _ => false

/-- What was said of an entry since it was added. -/
structure Career (kind : Kind) where
  /-- The number of entries added before this one. -/
  serial : Nat
  handle : Handle kind
  /-- The solution that the entry was last checked against. -/
  checked : Option Nat
  /-- The verdicts on the entry, the latest first. -/
  verdicts : List Verdict
  deriving DecidableEq, Repr

namespace Career

/-- The number of useless verdicts since the last useful one, or since the beginning. -/
def streak (career : Career kind) : Nat :=
  (career.verdicts.takeWhile (!·.isUseful)).count .useless

/-- Another verdict. -/
def judge (solution : Nat) (verdict : Verdict) (career : Career kind) : Career kind :=
  { career with checked := some solution, verdicts := verdict :: career.verdicts }

variable (career : Career kind) (solution : Nat)

@[simp]
theorem streak_loaded : (career.judge solution .loaded).streak = career.streak := by
  simp [streak, judge, Verdict.isUseful]

@[simp]
theorem streak_useful (score : Float) : (career.judge solution (.useful score)).streak = 0 := by
  simp [streak, judge, Verdict.isUseful]

@[simp]
theorem streak_useless : (career.judge solution .useless).streak = career.streak + 1 := by
  simp [streak, judge, Verdict.isUseful]

end Career

/-! ### Places -/

section Places

variable {β : Type} {items : List β} {position : Nat}

/-- Takes an item out of a list. The last one takes its place. -/
def swapOut (items : List β) (position : Nat) : List β :=
  match items.getLast? with
  | none => []
  | some last => (items.set position last).dropLast

theorem swapOut_concat (rest : List β) (last : β) (position : Nat) :
    swapOut (rest ++ [last]) position = ((rest ++ [last]).set position last).dropLast := by
  unfold swapOut
  rw [List.getLast?_concat]

theorem getElem?_swapOut (inside : position < items.length) (i : Nat) :
    (swapOut items position)[i]? =
      if i = items.length - 1 then none
      else if i = position then items[items.length - 1]? else items[i]? := by
  obtain rfl | ⟨rest, last, rfl⟩ := List.eq_nil_or_concat items
  · cases inside
  · rw [List.concat_eq_append] at inside ⊢
    rw [List.length_append, List.length_singleton] at inside
    rw [swapOut_concat, List.getElem?_dropLast, List.length_set, List.length_append,
      List.length_singleton, Nat.add_sub_cancel, List.getElem?_concat_length, List.getElem?_set]
    grind

/-- What stood at the position does not matter. -/
theorem swapOut_set (items : List β) (position : Nat) (item : β) :
    swapOut (items.set position item) position = swapOut items position := by
  obtain rfl | ⟨rest, last, rfl⟩ := List.eq_nil_or_concat items
  · rfl
  · rw [List.concat_eq_append]
    obtain before | rfl | beyond := lt_trichotomy position rest.length
    · rw [List.set_append_left _ _ before, swapOut_concat, swapOut_concat,
        List.set_append_left _ _ before, List.set_append_left _ _ (by simpa using before),
        List.set_set]
    · rw [List.set_append_right _ _ (Nat.le_refl _), Nat.sub_self, List.set_cons_zero,
        swapOut_concat, swapOut_concat]
      simp
    · rw [List.set_eq_of_length_le (by simp; omega)]

/-- All other items stay. -/
theorem swapOut_perm {item : β} (found : items[position]? = some item) :
    (item :: swapOut items position).Perm items := by
  obtain ⟨inside, value⟩ := List.getElem?_eq_some_iff.1 found
  obtain rfl | ⟨rest, last, rfl⟩ := List.eq_nil_or_concat items
  · cases inside
  · rw [List.concat_eq_append] at found inside ⊢
    rw [swapOut_concat]
    obtain before | rfl : position < rest.length ∨ position = rest.length := by
      rw [List.length_append, List.length_singleton] at inside
      omega
    · rw [List.getElem?_append_left before] at found
      obtain ⟨_, rfl⟩ := List.getElem?_eq_some_iff.1 found
      rw [List.set_append_left _ _ before, List.dropLast_concat]
      calc rest[position] :: rest.set position last
          _ |>.Perm (rest[position] :: last :: rest.eraseIdx position) :=
            (List.set_perm_cons_eraseIdx before last).cons _
          _ |>.Perm (last :: rest[position] :: rest.eraseIdx position) := .swap _ _ _
          _ |>.Perm (last :: rest) := (List.getElem_cons_eraseIdx_perm before).cons _
          _ |>.Perm (rest ++ [last]) := (List.perm_append_singleton _ _).symm
    · rw [List.getElem?_concat_length] at found
      cases found
      rw [List.set_append_right _ _ (Nat.le_refl _), Nat.sub_self, List.set_cons_zero,
        List.dropLast_concat]
      exact (List.perm_append_singleton _ _).symm

/-- An item that takes the place of another one stands beside the items that stay. -/
theorem set_perm_swapOut (inside : position < items.length) (item : β) :
    (items.set position item).Perm (item :: swapOut items position) := by
  have there : (items.set position item)[position]? = some item :=
    List.getElem?_set_self inside
  have kept := swapOut_perm there
  rw [swapOut_set] at kept
  exact kept.symm

end Places

/-! ### Writing careers down -/

namespace Stock

/-- The careers after an examination at a position. -/
def noted (solution position : Nat) (s : Stock kind α)
    (outcome : Outcome (Stock kind α) (Option (Handle kind × Verdict) × Nat))
    (careers : List (Career kind)) : List (Career kind) :=
  let judged := match outcome.result with
    | .ok (some (_, verdict), _) => careers.modify position (·.judge solution verdict)
    | _ => careers
  if outcome.state.pool.entries.size < s.pool.entries.size then swapOut judged position
  else judged

/-- The careers after `remaining` examinations from a position on. -/
def notedFrom (solution : Nat) (check : Check kind α) :
    (remaining asked position : Nat) → Stock kind α → List (Career kind) → List (Career kind)
  | 0, _, _, _, careers => careers
  | remaining + 1, asked, position, s, careers =>
      let outcome := examine solution (check asked) position s
      let careers := noted solution position s outcome careers
      match outcome.result with
      | .ok (verdict, next) =>
          notedFrom solution check remaining (asked + verdict.toList.length) next outcome.state
            careers
      | .error _ => careers

/-- The stock when a scan for a solution has found its cursor and counted itself. -/
def begun (solution : Nat) (s : Stock kind α) : Stock kind α :=
  ⟨{ s.pool with
      cursor := if s.pool.processed = some solution then s.pool.cursor else 0
      stats := { s.pool.stats with calls := s.pool.stats.calls + 1 } }, s.registry⟩

/-- The careers after a scan. -/
def notedScan (solution : Nat) (check : Check kind α) (s : Stock kind α)
    (careers : List (Career kind)) : List (Career kind) :=
  let begun := s.begun solution
  notedFrom solution check (begun.pool.entries.size - begun.pool.cursor) 0 begun.pool.cursor begun
    careers

end Stock

/-- A pool with the careers of its entries, in the same order. -/
structure Chronicle (kind : Kind) (α : Type) where
  pool : Pool kind α
  careers : List (Career kind)
  /-- The number of entries added so far. -/
  added : Nat

/-- The scans among the calls succeed; what becomes of other calls does not matter. -/
def StockCall.Completes [Poolable α] (s : Stock kind α) : StockCall kind α → Prop
  | scan solution check => ((Stock.scan solution check) s).result.isOk = true
  | _ => True

instance [Poolable α] (s : Stock kind α) (call : StockCall kind α) : Decidable (call.Completes s) :=
  match call with
  | .scan solution check =>
      inferInstanceAs (Decidable (((Stock.scan solution check) s).result.isOk = true))
  | .reserve _ | .add _ | .addIfNew _ | .remove _ | .clear => isTrue trivial

namespace Chronicle

/-- Nothing was added yet. -/
def start (key : Key α) (ageLimit : Nat) : Chronicle kind α :=
  ⟨.empty key ageLimit, [], 0⟩

variable [Poolable α]

/-- Makes a call and writes down what becomes of the entries. -/
def observe (chronicle : Chronicle kind α) (call : StockCall kind α)
    (registry : Registry kind α) : Chronicle kind α :=
  let s : Stock kind α := ⟨chronicle.pool, registry⟩
  let pool := (call.perform s).state.pool
  match call with
  | .reserve _ => { chronicle with pool := pool }
  | .add handle | .addIfNew handle =>
      if chronicle.pool.entries.size < pool.entries.size then
        { pool := pool
          careers := chronicle.careers ++ [⟨chronicle.added, handle, none, []⟩]
          added := chronicle.added + 1 }
      else { chronicle with pool := pool }
  | .remove handle =>
      match chronicle.pool.find registry handle with
      | .ok (some position) =>
          { chronicle with pool := pool, careers := swapOut chronicle.careers position }
      | _ => { chronicle with pool := pool }
  | .scan solution check =>
      { chronicle with pool := pool, careers := s.notedScan solution check chronicle.careers }
  | .clear => { chronicle with pool := pool, careers := [] }

/-- A call, with whatever the registry holds at the time. -/
def Observed (chronicle chronicle' : Chronicle kind α) : Prop :=
  ∃ (call : StockCall kind α) (registry : Registry kind α),
    call.Completes ⟨chronicle.pool, registry⟩ ∧ chronicle.observe call registry = chronicle'

/-- Any number of calls on a pool that was empty at first. -/
def Reached (chronicle : Chronicle kind α) : Prop :=
  ∃ (key : Key α) (ageLimit : Nat), Relation.ReflTransGen Observed (start key ageLimit) chronicle

variable {chronicle : Chronicle kind α}

/-- Looking does not change what calls do. -/
theorem observe_pool (call : StockCall kind α) (registry : Registry kind α) :
    (chronicle.observe call registry).pool =
      (call.perform ⟨chronicle.pool, registry⟩).state.pool := by
  unfold observe
  cases call with
  | reserve | scan | clear => rfl
  | add | addIfNew =>
    dsimp only
    split <;> rfl
  | remove =>
    dsimp only
    split <;> rfl

theorem Reached.pool (reached : chronicle.Reached) : chronicle.pool.Reached := by
  obtain ⟨key, ageLimit, calls⟩ := reached
  refine ⟨key, ageLimit, ?_⟩
  induction calls with
  | refl => exact .refl
  | tail _ last ih =>
    obtain ⟨call, registry, _, rfl⟩ := last
    exact ih.tail ⟨call, registry, (observe_pool call registry).symm⟩

end Chronicle

end BranchCutPrice
