import BranchCutPrice.Pool.Basic

/-!
Scanning a pool against a solution. Only entries not yet checked against it are
looked at; an entry that is useless too many times in a row is evicted.
-/

namespace BranchCutPrice

/-- What a check finds about an entry. -/
inductive Verdict where
  /-- Loaded already, which does not count as useless. -/
  | loaded
  | useful (score : Float)
  | useless
  deriving DecidableEq, Repr

/-- What judges the entries of a scan. It may change from one entry to the next, so
it is given the number of entries that it judged before in the scan. -/
abbrev Check (kind : Kind) (α : Type) : Type :=
  Nat → Handle kind → α → Verdict

/-- What a scan comes to. -/
inductive Finding where
  /-- No entry was left to check. -/
  | notRun
  | nothing
  | found
  deriving DecidableEq, Repr

structure Survey (kind : Kind) where
  finding : Finding
  /-- The verdicts in the order of the checks. -/
  verdicts : List (Handle kind × Verdict)
  deriving DecidableEq, Repr

/-- The useful ones among some verdicts, with their scores. -/
def usefulScores {kind : Kind} (verdicts : List (Handle kind × Verdict)) :
    List (Handle kind × Float) :=
  verdicts.filterMap fun (handle, verdict) =>
    match verdict with
    | .useful score => some (handle, score)
    | _ => none

def Survey.useful {kind : Kind} (survey : Survey kind) : List (Handle kind × Float) :=
  usefulScores survey.verdicts

namespace Stock

variable {kind : Kind} {α : Type}

def modifyEntry (position : Nat) (f : PoolEntry kind → PoolEntry kind) :
    Action (Stock kind α) Unit :=
  modifyPool fun pool => { pool with entries := pool.entries.modify position f }

def modifyStats (f : PoolStats → PoolStats) : Action (Stock kind α) Unit :=
  modifyPool fun pool => { pool with stats := f pool.stats }

/-- Counts a useless check of the entry at a position, and evicts the entry if
there were too many. Gives the position to go on from. -/
def grow (position : Nat) (entry : PoolEntry kind) : Action (Stock kind α) Nat := do
  let age := entry.age + 1
  modifyEntry position fun entry => { entry with age := age }
  if (← get).pool.ageLimit < age then
    Action.emit (.evicted kind entry.handle age)
    removeAt position
    modifyStats fun stats => { stats with evicted := stats.evicted + 1 }
    return position
  else
    return position + 1

/-- Checks the entry at a position, unless that was done for this solution. Gives
the verdict and the position to go on from, where the last entry stands if this
one was evicted. -/
def examine (solution : Nat) (check : Handle kind → α → Verdict) (position : Nat) :
    Action (Stock kind α) (Option (Handle kind × Verdict) × Nat) := do
  match (← get).pool.entries[position]? with
  | none => return (none, position + 1)
  | some entry =>
      if entry.processed = some solution then return (none, position + 1)
      modifyEntry position fun entry => { entry with processed := some solution }
      modifyStats fun stats => { stats with checks := stats.checks + 1 }
      let item ← Action.read fun s => s.registry.get entry.handle
      let verdict := check entry.handle item
      match verdict with
      | .loaded => return (some (entry.handle, verdict), position + 1)
      | .useful _ =>
          modifyEntry position fun entry => { entry with age := 0 }
          return (some (entry.handle, verdict), position + 1)
      | .useless => return (some (entry.handle, verdict), ← grow position entry)

/-- Checks `remaining` entries from a position on, when `asked` others were judged.
Each step passes one entry or evicts it. -/
def examineFrom (solution : Nat) (check : Check kind α) :
    (remaining asked position : Nat) → Action (Stock kind α) (List (Handle kind × Verdict))
  | 0, _, _ => pure []
  | remaining + 1, asked, position => do
      let (verdict, next) ← examine solution (check asked) position
      let verdicts ← examineFrom solution check remaining (asked + verdict.toList.length) next
      return verdict.toList ++ verdicts

/-- Refuses a solution older than the one that the pool was last scanned for. -/
def requireRecent (solution : Nat) : Action (Stock kind α) Unit :=
  .read fun s =>
    match s.pool.processed with
    | none => .ok ()
    | some processed =>
        if solution < processed then .error (.invalid (.olderSolution solution processed))
        else .ok ()

/-- Checks the entries from the cursor on, of which there is at least one. -/
def survey (solution : Nat) (check : Check kind α) :
    Action (Stock kind α) (Survey kind) := do
  modifyStats fun stats => { stats with calls := stats.calls + 1 }
  let pool := (← get).pool
  Action.emit (.poolScanned kind pool.entries.size pool.cursor)
  let verdicts ← examineFrom solution check (pool.entries.size - pool.cursor) 0 pool.cursor
  let useful := usefulScores verdicts
  modifyPool fun pool => { pool with
    processed := some solution
    cursor := pool.entries.size
    stats := { pool.stats with found := pool.stats.found + useful.length } }
  return ⟨if useful.isEmpty then .nothing else .found, verdicts⟩

/-- Checks all entries not yet checked against a solution. A new solution starts
from the first entry again. -/
def scan (solution : Nat) (check : Check kind α) :
    Action (Stock kind α) (Survey kind) := do
  requireRecent solution
  modifyPool fun pool =>
    { pool with cursor := if pool.processed = some solution then pool.cursor else 0 }
  let pool := (← get).pool
  if pool.entries.size ≤ pool.cursor then
    modifyPool fun pool => { pool with processed := some solution }
    return ⟨.notRun, []⟩
  else
    survey solution check

end Stock

end BranchCutPrice
