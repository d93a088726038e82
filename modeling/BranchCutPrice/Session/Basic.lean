import BranchCutPrice.Incumbent
import BranchCutPrice.Pricing.ColumnPool
import BranchCutPrice.Separation.CutPool
import BranchCutPrice.Tree.Focus
import BranchCutPrice.Tree.Growth
import BranchCutPrice.Tree.Promotion
import BranchCutPrice.Tree.Removal

/-!
A branch-cut-and-price session: the tree, the relaxation, the pools and the
rounds under one roof. The client solves the relaxations, finds cuts and columns,
and decides how to branch.
-/

namespace BranchCutPrice

structure Session where
  tree : Tree
  lp : Relaxation
  cutPool : CutPool
  columnPool : ColumnPool
  cuts : SeparationRound
  columns : PricingRound
  incumbent : Incumbent
  /-- The nodes taken up. -/
  processed : Nat
  /-- The leaves removed because of the cutoff. -/
  pruned : Nat
  cutsAdded : Nat
  columnsAdded : Nat
  settings : SessionSettings

structure SessionStats where
  processed : Nat
  pruned : Nat
  openLeaves : Nat
  cutsAdded : Nat
  columnsAdded : Nat
  bestBound : Float
  incumbent : Float
  gap : Float
  tree : TreeStats
  cutPool : PoolStats
  columnPool : PoolStats
  deriving DecidableEq, Repr

namespace Session

/-- A session around a relaxation that holds the initial rows and columns. -/
def ofSettings (settings : SessionSettings) (lp : Relaxation) : Except Error Session := do
  let cutPool ← CutPool.ofSettings settings.cutPool
  let columnPool ← ColumnPool.ofSettings settings.columnPool
  return {
    tree := .empty settings.tree
    lp := lp
    cutPool := cutPool
    columnPool := columnPool
    cuts := .empty
    columns := .empty settings.pricing
    incumbent := .empty
    processed := 0
    pruned := 0
    cutsAdded := 0
    columnsAdded := 0
    settings := settings }

/-! ### Parts -/

def lpPart : Part Session Relaxation where
  get s := s.lp
  set s lp := { s with lp := lp }

def treePart : Part Session Tree where
  get s := s.tree
  set s tree := { s with tree := tree }

def cutPoolPart : Part Session CutPool where
  get s := s.cutPool
  set s pool := { s with cutPool := pool }

def columnPoolPart : Part Session ColumnPool where
  get s := s.columnPool
  set s pool := { s with columnPool := pool }

def cutsPart : Part Session SeparationRound where
  get s := s.cuts
  set s cuts := { s with cuts := cuts }

def columnsPart : Part Session PricingRound where
  get s := s.columns
  set s columns := { s with columns := columns }

def incumbentPart : Part Session Incumbent where
  get s := s.incumbent
  set s incumbent := { s with incumbent := incumbent }

/-- A part together with the relaxation of the session. -/
def linked {τ : Type} (part : Part Session τ) : Part Session (Linked τ) where
  get s := ⟨part.get s, s.lp⟩
  set s linked := { part.set s linked.own with lp := linked.lp }

def onTree {α : Type} (act : Action (Linked Tree) α) : Action Session α :=
  (linked treePart).run act

/-! ### Reports -/

/-- The lowest bound of the queued leaves. -/
def bestBound (session : Session) : Float :=
  session.tree.bestBound

def gap (session : Session) : Float :=
  session.incumbent.gap session.bestBound

def stats (session : Session) : SessionStats where
  processed := session.processed
  pruned := session.pruned
  openLeaves := session.tree.queue.size
  cutsAdded := session.cutsAdded
  columnsAdded := session.columnsAdded
  bestBound := session.bestBound
  incumbent := session.incumbent.objective
  gap := session.gap
  tree := session.tree.stats
  cutPool := session.cutPool.pool.stats
  columnPool := session.columnPool.pool.stats

def progress (session : Session) : Progress where
  processed := session.processed
  openLeaves := session.tree.queue.size
  alive := session.tree.size
  bound := session.bestBound
  incumbent := session.incumbent.objective
  gap := session.gap
  cuts := session.cutsAdded
  columns := session.columnsAdded

/-- Whether progress is due at the node taken up last. -/
def reportDue (session : Session) : Bool :=
  session.settings.verbose && session.settings.logPeriod != 0 &&
    session.processed % session.settings.logPeriod == 0

def reportProgress : Action Session Unit := do
  let session ← get
  Action.emitIf session.reportDue (.progressed session.progress)

end Session

end BranchCutPrice
