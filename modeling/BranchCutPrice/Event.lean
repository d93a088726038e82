import BranchCutPrice.Numeric.Decimal
import BranchCutPrice.Slot.Handle

/-! What a search reports while it runs. -/

namespace BranchCutPrice

/-- How much detail an event carries, the coarsest first. -/
inductive Level where
  | info
  | debug
  | trace
  deriving DecidableEq, Repr

namespace Level

def text : Level → String
  | info => "INFO"
  | debug => "DEBUG"
  | trace => "TRACE"

/-- A listener at a level hears the events of that level and of the coarser ones. -/
def hears : Level → Level → Bool
  | info, info => true
  | info, _ => false
  | debug, trace => false
  | debug, _ => true
  | trace, _ => true

end Level

/-- The state of the search after another node was taken up. -/
structure Progress where
  processed : Nat
  openLeaves : Nat
  alive : Nat
  bound : Float
  incumbent : Float
  gap : Float
  cuts : Nat
  columns : Nat
  deriving DecidableEq, Repr

inductive Event where
  | leafCreated (node depth : Nat)
  | nodeFreed (node depth : Nat)
  | becameFork (node : Nat)
  | becameSubroot (node rows : Nat)
  | storedAsSubroot (node : Nat)
  | focused (node kept changes : Nat)
  | pruned (leaves : Nat) (cutoff : Float)
  | poolScanned (kind : Kind) (entries position : Nat)
  | evicted (kind : Kind) (handle : Handle kind) (age : Nat)
  | duplicateCut (row stored : RowId)
  | cutsApplied (cuts node : Nat)
  | columnAdmitted (column : ColumnId) (score : Float)
  | roundAdmitted (added forced efficacious : Nat)
  | started (rows columns : Nat)
  | progressed (progress : Progress)
  | improved (objective : Float) (pruned : Nat)
  deriving DecidableEq, Repr

namespace Event

def level : Event → Level
  | started .. | progressed .. | improved .. => .info
  | becameFork .. | becameSubroot .. | storedAsSubroot .. | pruned .. | poolScanned ..
  | cutsApplied .. | roundAdmitted .. => .debug
  | leafCreated .. | nodeFreed .. | focused .. | evicted .. | duplicateCut ..
  | columnAdmitted .. => .trace

/-- Objective values and scores are written with six places and an exponent. -/
def amount (x : Float) : String :=
  Decimal.scientific 6 x

def message : Event → String
  | leafCreated node depth => s!"created leaf {node} at depth {depth}"
  | nodeFreed node depth => s!"freed node {node} at depth {depth}"
  | becameFork node => s!"node {node} converted to fork"
  | becameSubroot node rows => s!"node {node} converted to subroot with {rows} rows"
  | storedAsSubroot node => s!"node {node} stored as subroot"
  | focused node kept changes => s!"focus on node {node}: kept {kept} rows, {changes} changes"
  | pruned leaves cutoff => s!"pruned {leaves} leaves at cutoff {amount cutoff}"
  | poolScanned kind entries position =>
      s!"scanning {kind.text} pool with {entries} entries from position {position}"
  | evicted _ handle age => s!"evicting {handle.text} at age {age}"
  | duplicateCut row stored => s!"{row.text} duplicates pooled {stored.text}"
  | cutsApplied cuts node => s!"applied {cuts} cuts at node {node}"
  | columnAdmitted column score => s!"admitting {column.text} with score {amount score}"
  | roundAdmitted added forced efficacious =>
      s!"price store admitted {added} columns ({forced} forced, {efficacious} efficacious)"
  | started rows columns => s!"B&B started: {rows} base rows, {columns} columns"
  | progressed p =>
      s!"Nodes: {p.processed} ({p.openLeaves} open, {p.alive} alive) | " ++
      s!"Bound: {amount p.bound} | Incumbent: {amount p.incumbent} | " ++
      s!"Gap: {Decimal.fixed 2 (p.gap * 100.0)}% | Cuts: {p.cuts} | Cols: {p.columns}"
  | improved objective leaves => s!"New incumbent: obj={amount objective}, pruned {leaves} nodes"

end Event

end BranchCutPrice
