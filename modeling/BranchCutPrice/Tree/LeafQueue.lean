import BranchCutPrice.Numeric.Heap
import BranchCutPrice.Settings
import BranchCutPrice.Slot.Handle

/-!
The queue of unsolved leaves. A leaf gets its priority when it is queued; the
highest priority leaves first, and of equal ones the leaf created last. The leaves
lie in the layout of a heap, which is the order in which a cutoff takes them out.
-/

namespace BranchCutPrice

structure QueuedLeaf where
  node : NodeId
  bound : Float
  seq : Nat
  priority : Float
  deriving DecidableEq, Repr

namespace QueuedLeaf

/-- Whether a leaf is taken up before another one. An undefined priority equals
every other. -/
def precedes (left right : QueuedLeaf) : Bool :=
  right.priority < left.priority || (!(left.priority < right.priority) && right.seq < left.seq)

/-- The leaf that precedes the others, of equal ones the first. -/
def best? : List QueuedLeaf → Option QueuedLeaf
  | [] => none
  | leaf :: rest =>
      match best? rest with
      | none => some leaf
      | some best => if best.precedes leaf then some best else some leaf

/-- Whether the bound of a leaf reaches the cutoff. -/
def reaches (leaf : QueuedLeaf) (cutoff : Float) : Bool :=
  cutoff - Double.boundSlack ≤ leaf.bound

end QueuedLeaf

structure LeafQueue where
  selection : Selection
  leaves : List QueuedLeaf
  /-- The number of leaves taken up so far, which sets the rhythm of dives. -/
  taken : Nat
  deriving DecidableEq, Repr

namespace LeafQueue

def empty (selection : Selection) : LeafQueue :=
  ⟨selection, [], 0⟩

def size (queue : LeafQueue) : Nat :=
  queue.leaves.length

/-- The priority of a leaf queued now: the deeper or the lower its bound the higher. -/
def priority (queue : LeafQueue) (bound : Float) (depth : Nat) : Float :=
  match queue.selection with
  | .bestBound => -bound
  | .depthFirst => Float.ofNat depth
  | .hybrid period =>
      if 0 < period && queue.taken % period = 0 then Float.ofNat depth else -bound

def push (queue : LeafQueue) (node : NodeId) (bound : Float) (depth seq : Nat) : LeafQueue :=
  let leaf : QueuedLeaf := ⟨node, bound, seq, queue.priority bound depth⟩
  { queue with leaves := Heap.insert QueuedLeaf.precedes queue.leaves leaf }

/-- The next leaf. -/
def peek? (queue : LeafQueue) : Option NodeId :=
  (QueuedLeaf.best? queue.leaves).map QueuedLeaf.node

/-- Takes the next leaf out. -/
def pop? (queue : LeafQueue) : Option (NodeId × LeafQueue) :=
  (QueuedLeaf.best? queue.leaves).map fun best =>
    let rest := Heap.removeAt QueuedLeaf.precedes queue.leaves (queue.leaves.idxOf best)
    (best.node, { queue with leaves := rest, taken := queue.taken + 1 })

def contains (queue : LeafQueue) (node : NodeId) : Bool :=
  queue.leaves.any (·.node == node)

def erase (queue : LeafQueue) (node : NodeId) : LeafQueue :=
  { queue with leaves := Heap.retain QueuedLeaf.precedes (·.node != node) queue.leaves }

/-- The lowest bound of the queued leaves, infinite if there is none. -/
def bestBound (queue : LeafQueue) : Float :=
  (queue.leaves.map QueuedLeaf.bound).foldl Double.least Double.infinity

/-- Takes out the leaves whose bounds reach the cutoff. -/
def drain (queue : LeafQueue) (cutoff : Float) : List NodeId × LeafQueue :=
  ((queue.leaves.filter (·.reaches cutoff)).map QueuedLeaf.node,
    { queue with
      leaves := Heap.rebuild QueuedLeaf.precedes (queue.leaves.filter (!·.reaches cutoff)) })

end LeafQueue

end BranchCutPrice
