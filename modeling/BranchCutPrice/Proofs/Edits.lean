import BranchCutPrice.Proofs.Budding
import BranchCutPrice.Proofs.Doubles

/-!
The edits that operations make to the nodes and the queue of a tree, and what every edit keeps.
A child takes over the bound of its parent, and only leaves, which have no children, get higher
bounds. Whatever changes or removes a queued leaf changes or removes its entry as well, so the
entries never say anything outdated.
-/

namespace BranchCutPrice

/-! ### Nodes -/

/-- What becomes of a node: it keeps its place, and as long as it is a leaf its bound may be
raised. -/
structure Node.Follows (later node : Node) : Prop where
  seq : later.seq = node.seq
  parent : later.parent = node.parent
  inner : node.kind ≠ .leaf → later.kind ≠ .leaf
  bound : later.bound = node.bound ∨
    node.kind = .leaf ∧ later.bound.isNaN = false ∧ ¬later.bound ≤ node.bound

namespace Node.Follows

variable {node later : Node}

theorem rfl : node.Follows node :=
  ⟨Eq.refl _, Eq.refl _, fun inner => inner, .inl (Eq.refl _)⟩

theorem defined (follows : later.Follows node) (defined : node.bound.isNaN = false) :
    later.bound.isNaN = false := by
  obtain same | ⟨_, defined', _⟩ := follows.bound
  · rw [same]
    exact defined
  · exact defined'

theorem bound_le (follows : later.Follows node) (defined : node.bound.isNaN = false) :
    node.bound ≤ later.bound := by
  obtain same | ⟨_, defined', above⟩ := follows.bound
  · rw [same]
    exact Double.le_refl defined
  · exact Double.le_of_lt (Double.lt_of_not_le defined' defined above)

end Node.Follows

/-- The priority that a selection gives a leaf. -/
def Selection.Ranks (selection : Selection) (node : Node) (priority : Float) : Prop :=
  match selection with
  | .bestBound => priority = -node.bound
  | .depthFirst => priority = Float.ofNat node.depth
  | .hybrid _ => priority = -node.bound ∨ priority = Float.ofNat node.depth

theorem LeafQueue.priority_ranks (queue : LeafQueue) (node : Node) :
    queue.selection.Ranks node (queue.priority node.bound node.depth) := by
  unfold Selection.Ranks priority
  cases queue.selection with
  | bestBound | depthFirst => rfl
  | hybrid period =>
    dsimp only
    split
    · exact .inr rfl
    · exact .inl rfl

namespace Tree

variable {tree tree' tree'' : Tree} {id : NodeId} {node node' : Node} {may : Set Deed} {torn : Prop}

theorem heritage_some {above : NodeId} {upper : Node}
    (found : tree.nodes.get? above = some upper) : tree.heritage (some above) =
      if upper.kind = .leaf then .error (.leafParent above.index)
      else .ok (upper.bound, upper.depth + 1) := by
  simp only [heritage, node_ok.2 found, bind, Except.bind]
  split <;> rfl

theorem heritage_ok {parent : Option NodeId} {bound : Float} {depth : Nat}
    (inherits : tree.heritage parent = .ok (bound, depth)) :
    parent = none ∧ bound = Double.negInfinity ∨ ∃ above upper, parent = some above ∧
      tree.nodes.get? above = some upper ∧ upper.kind ≠ .leaf ∧ bound = upper.bound := by
  cases parent with
  | none =>
    cases inherits
    exact .inl ⟨rfl, rfl⟩
  | some above =>
    cases found : tree.nodes.get? above with
    | none =>
      have stale : tree.node above = .error above.stale := by
        unfold Tree.node
        rw [found]
      simp [heritage, stale, bind, Except.bind] at inherits
    | some upper =>
      rw [heritage_some found] at inherits
      split at inherits
      · cases inherits
      · rename_i inner
        cases inherits
        exact .inr ⟨above, upper, rfl, found, inner, rfl⟩

/-! ### Edits -/

/-- A change that an operation makes to nodes and queue. Nodes are created and removed as far
as `may` allows it, and only a torn tree loses nodes that it may still queue. -/
inductive Edit (may : Set Deed) (torn : Prop) : Tree → Tree → Prop where
  | beside {tree tree' : Tree} (nodes : tree'.nodes = tree.nodes) (queue : tree'.queue = tree.queue)
      (nextSeq : tree'.nextSeq = tree.nextSeq) (settings : tree'.settings = tree.settings) :
      Edit may torn tree tree'
  | write {tree : Tree} {id : NodeId} {node node' : Node}
      (found : tree.nodes.get? id = some node) (kind : node'.kind = .leaf ↔ node.kind = .leaf)
      (bound : node'.bound = node.bound) (seq : node'.seq = node.seq)
      (depth : node'.depth = node.depth) (parent : node'.parent = node.parent) :
      Edit may torn tree (tree.setNode id node')
  | solve {tree : Tree} {id : NodeId} {node : Node} {payload : Payload}
      (found : tree.nodes.get? id = some node) (solved : payload.kind ≠ .leaf) :
      Edit may torn tree { tree.setPayload id node payload with queue := tree.queue.erase id }
  | raise {tree : Tree} {id : NodeId} {node : Node} {bound : Float}
      (found : tree.nodes.get? id = some node) (leaf : node.kind = .leaf)
      (defined : bound.isNaN = false) (above : ¬bound ≤ node.bound) :
      Edit may torn tree ((tree.setNode id { node with bound := bound }).requeue id
        { node with bound := bound })
  | enqueue {tree : Tree} {id : NodeId} {node : Node}
      (found : tree.nodes.get? id = some node) (leaf : node.kind = .leaf)
      (absent : ¬tree.queue.contains id = true) :
      Edit may torn tree
        { tree with queue := tree.queue.push id node.bound node.depth node.seq }
  | dequeue {tree : Tree} {queue : LeafQueue}
      (selection : queue.selection = tree.queue.selection ∨
        queue.selection = tree.settings.selection)
      (part : queue.leaves.Subperm tree.queue.leaves) :
      Edit may torn tree { tree with queue := queue }
  | create {tree : Tree} {child : Node} (allowed : .sprout ∈ may)
      (inherits : tree.heritage child.parent = .ok (child.bound, child.depth))
      (seq : child.seq = tree.nextSeq) :
      Edit may torn tree
        { tree with nodes := (tree.nodes.insert child).2, nextSeq := tree.nextSeq + 1 }
  | remove {tree : Tree} (allowed : .fell ∈ may) (id : NodeId) :
      Edit may torn tree
        { tree with nodes := tree.nodes.erase id, queue := tree.queue.erase id }
  | tear {tree : Tree} (allowed : .fell ∈ may) (open' : torn) (id : NodeId) :
      Edit may torn tree { tree with nodes := tree.nodes.erase id }
  | wipe {tree tree' : Tree} (allowed : .fell ∈ may)
      (nodes : tree'.nodes = tree.nodes.eraseAll tree.nodes.handles)
      (queue : tree'.queue = .empty tree.settings.selection)
      (nextSeq : tree'.nextSeq = tree.nextSeq) (settings : tree'.settings = tree.settings) :
      Edit may torn tree tree'

/-- Any number of edits. -/
def Edited (may : Set Deed) (torn : Prop) : Tree → Tree → Prop :=
  Relation.ReflTransGen (Edit may torn)

theorem Edit.edited (edit : Edit may torn tree tree') : Edited may torn tree tree' :=
  .single edit

theorem Edited.rfl : Edited may torn tree tree :=
  .refl

theorem Edited.trans (first : Edited may torn tree tree') (second : Edited may torn tree' tree'') :
    Edited may torn tree tree'' :=
  Relation.ReflTransGen.trans first second

theorem requeue_nodes (tree : Tree) (id : NodeId) (node : Node) :
    (tree.requeue id node).nodes = tree.nodes := by
  unfold requeue
  split <;> rfl

theorem requeue_nextSeq (tree : Tree) (id : NodeId) (node : Node) :
    (tree.requeue id node).nextSeq = tree.nextSeq := by
  unfold requeue
  split <;> rfl

theorem requeue_settings (tree : Tree) (id : NodeId) (node : Node) :
    (tree.requeue id node).settings = tree.settings := by
  unfold requeue
  split <;> rfl

theorem requeue_selection (tree : Tree) (id : NodeId) (node : Node) :
    (tree.requeue id node).queue.selection = tree.queue.selection := by
  unfold requeue
  split <;> rfl

/-- No node is new, and every node follows the one that was there before. -/
structure Keeps (tree tree' : Tree) : Prop where
  nodes : ∀ id later, tree'.nodes.get? id = some later →
    ∃ node, tree.nodes.get? id = some node ∧ later.Follows node
  nextSeq : tree'.nextSeq = tree.nextSeq
  sound : tree.nodes.Sound → tree'.nodes.Sound

namespace Keeps

theorem of_nodes (nodes : tree'.nodes = tree.nodes) (nextSeq : tree'.nextSeq = tree.nextSeq) :
    tree.Keeps tree' where
  nodes _ later found := ⟨later, nodes ▸ found, .rfl⟩
  nextSeq := nextSeq
  sound sound := nodes ▸ sound

theorem of_set (found : tree.nodes.get? id = some node) (follows : node'.Follows node)
    (nodes : tree'.nodes = tree.nodes.set id node') (nextSeq : tree'.nextSeq = tree.nextSeq) :
    tree.Keeps tree' where
  nodes _ later here := by
    rw [nodes, SlotTable.get?_set found] at here
    split at here
    · rename_i same
      cases here
      exact ⟨node, same ▸ found, follows⟩
    · exact ⟨later, here, .rfl⟩
  nextSeq := nextSeq
  sound sound := nodes ▸ sound.set id node'

theorem of_erase (nodes : tree'.nodes = tree.nodes.erase id)
    (nextSeq : tree'.nextSeq = tree.nextSeq) : tree.Keeps tree' where
  nodes _ later here := by
    rw [nodes, SlotTable.get?_erase] at here
    split at here
    · cases here
    · exact ⟨later, here, .rfl⟩
  nextSeq := nextSeq
  sound sound := nodes ▸ sound.erase id

theorem of_eraseAll {gone : List NodeId} (nodes : tree'.nodes = tree.nodes.eraseAll gone)
    (nextSeq : tree'.nextSeq = tree.nextSeq) : tree.Keeps tree' where
  nodes _ later here := by
    rw [nodes, SlotTable.get?_eraseAll] at here
    split at here
    · cases here
    · exact ⟨later, here, .rfl⟩
  nextSeq := nextSeq
  sound sound := nodes ▸ sound.eraseAll gone

end Keeps

/-- A node was created below one that has its bound, or as a root without a bound. -/
structure Bears (tree : Tree) (child : Node) (tree' : Tree) : Prop where
  inherits : tree.heritage child.parent = .ok (child.bound, child.depth)
  seq : child.seq = tree.nextSeq
  nodes : tree'.nodes = (tree.nodes.insert child).2
  nextSeq : tree'.nextSeq = tree.nextSeq + 1

namespace Edit

theorem keeps_or_bears (edit : Edit may torn tree tree') :
    tree.Keeps tree' ∨ .sprout ∈ may ∧ ∃ child, tree.Bears child tree' := by
  cases edit with
  | beside nodes queue nextSeq settings => exact .inl (.of_nodes nodes nextSeq)
  | @write id node node' found kind bound seq depth parent =>
    have follows : node'.Follows node :=
      ⟨seq, parent, fun inner leaf => inner (kind.1 leaf), .inl bound⟩
    exact .inl (.of_set found follows rfl rfl)
  | @solve id node payload found solved =>
    let later : Node := { node with payload := payload }
    have follows : later.Follows node := ⟨rfl, rfl, fun _ => solved, .inl rfl⟩
    exact .inl (.of_set found follows rfl rfl)
  | @raise id node bound found leaf defined above =>
    let later : Node := { node with bound := bound }
    have follows : later.Follows node :=
      ⟨rfl, rfl, fun inner => inner, .inr ⟨leaf, defined, above⟩⟩
    exact .inl (.of_set found follows (requeue_nodes _ _ _) (requeue_nextSeq _ _ _))
  | enqueue | dequeue => exact .inl (.of_nodes rfl rfl)
  | create allowed inherits seq => exact .inr ⟨allowed, _, inherits, seq, rfl, rfl⟩
  | remove | tear => exact .inl (.of_erase rfl rfl)
  | wipe allowed nodes queue nextSeq settings => exact .inl (.of_eraseAll nodes nextSeq)

/-- Slots are never given back. -/
theorem slots_le (edit : Edit may torn tree tree') :
    tree.nodes.slots.size ≤ tree'.nodes.slots.size := by
  cases edit with
  | beside nodes => rw [nodes]
  | write | solve => exact (SlotTable.size_set _ _ _).ge
  | raise =>
    rw [requeue_nodes]
    exact (SlotTable.size_set _ _ _).ge
  | enqueue | dequeue => exact Nat.le_refl _
  | create => exact SlotTable.size_le_insert _ _
  | remove | tear => exact (SlotTable.size_erase _ _).ge
  | wipe allowed nodes =>
    rw [nodes]
    exact (SlotTable.size_eraseAll _ _).ge

theorem settings_eq (edit : Edit may torn tree tree') : tree'.settings = tree.settings := by
  cases edit with
  | beside _ _ _ settings | wipe _ _ _ _ settings => exact settings
  | raise => exact requeue_settings _ _ _
  | write | solve | enqueue | dequeue | create | remove | tear => rfl

end Edit

/-- No operation changes the settings of a tree. -/
theorem Edited.settings_eq (edited : Edited may torn tree tree') :
    tree'.settings = tree.settings := by
  induction edited with
  | refl => rfl
  | tail _ last ih => exact last.settings_eq.trans ih

/-! ### Bounds -/

/-- Bounds only grow from parents to children. A parent is older than its children, unlike a
node that got its handle afterwards. -/
structure Graded (tree : Tree) : Prop where
  sound : tree.nodes.Sound
  defined : ∀ id node, tree.nodes.get? id = some node → node.bound.isNaN = false
  seqs : ∀ id node, tree.nodes.get? id = some node → node.seq < tree.nextSeq
  apart : ∀ id id' node node', tree.nodes.get? id = some node → tree.nodes.get? id' = some node' →
    node.seq = node'.seq → id = id'
  inherits : ∀ id node above upper, tree.nodes.get? id = some node → node.parent = some above →
    tree.nodes.get? above = some upper → upper.seq < node.seq →
      upper.kind ≠ .leaf ∧ upper.bound ≤ node.bound

theorem Graded.empty (settings : TreeSettings) : (Tree.empty settings).Graded where
  sound := SlotTable.sound_empty
  defined _ _ found := by simp [Tree.empty] at found
  seqs _ _ found := by simp [Tree.empty] at found
  apart _ _ _ _ found := by simp [Tree.empty] at found
  inherits _ _ _ _ found := by simp [Tree.empty] at found

theorem Keeps.graded (keeps : tree.Keeps tree') (graded : tree.Graded) : tree'.Graded where
  sound := keeps.sound graded.sound
  defined id later here := by
    obtain ⟨node, found, follows⟩ := keeps.nodes id later here
    exact follows.defined (graded.defined id node found)
  seqs id later here := by
    obtain ⟨node, found, follows⟩ := keeps.nodes id later here
    rw [follows.seq, keeps.nextSeq]
    exact graded.seqs id node found
  apart id id' later later' here here' same := by
    obtain ⟨node, found, follows⟩ := keeps.nodes id later here
    obtain ⟨node', found', follows'⟩ := keeps.nodes id' later' here'
    rw [follows.seq, follows'.seq] at same
    exact graded.apart id id' node node' found found' same
  inherits id later above laterUpper here parent hereUpper older := by
    obtain ⟨node, found, follows⟩ := keeps.nodes id later here
    obtain ⟨upper, foundUpper, followsUpper⟩ := keeps.nodes above laterUpper hereUpper
    rw [follows.seq, followsUpper.seq] at older
    obtain ⟨inner, below⟩ := graded.inherits id node above upper found
      (follows.parent.symm.trans parent) foundUpper older
    refine ⟨followsUpper.inner inner, ?_⟩
    -- the parent is no leaf, so its bound stayed
    obtain same | ⟨leaf, _, _⟩ := followsUpper.bound
    · rw [same]
      exact Double.le_trans below (follows.bound_le (graded.defined id node found))
    · exact absurd leaf inner

namespace Bears

variable {child : Node}

theorem look (bears : tree.Bears child tree') (sound : tree.nodes.Sound) (fits : tree'.nodes.Fits)
    (other : NodeId) : tree'.nodes.get? other =
      if other = (tree.nodes.insert child).1 then some child else tree.nodes.get? other := by
  rw [bears.nodes] at fits ⊢
  exact SlotTable.get?_insert sound fits other

theorem fresh (bears : tree.Bears child tree') (sound : tree.nodes.Sound)
    (fits : tree'.nodes.Fits) : tree.nodes.get? (tree.nodes.insert child).1 = none := by
  rw [bears.nodes] at fits
  exact SlotTable.get?_new sound fits

/-- What was there stays. -/
theorem stays (bears : tree.Bears child tree') (sound : tree.nodes.Sound)
    (fits : tree'.nodes.Fits) (found : tree.nodes.get? id = some node) :
    tree'.nodes.get? id = some node := by
  rw [bears.look sound fits, if_neg, found]
  rintro rfl
  rw [bears.fresh sound fits] at found
  cases found

theorem cases (bears : tree.Bears child tree') (sound : tree.nodes.Sound)
    (fits : tree'.nodes.Fits) (here : tree'.nodes.get? id = some node) :
    id = (tree.nodes.insert child).1 ∧ node = child ∨ tree.nodes.get? id = some node := by
  rw [bears.look sound fits] at here
  split at here
  · rename_i same
    cases here
    exact .inl ⟨same, rfl⟩
  · exact .inr here

theorem defined (bears : tree.Bears child tree') (graded : tree.Graded) :
    child.bound.isNaN = false := by
  obtain ⟨_, bound⟩ | ⟨above, upper, _, found, _, bound⟩ := heritage_ok bears.inherits
  · rw [bound]
    decide
  · rw [bound]
    exact graded.defined above upper found

theorem graded (bears : tree.Bears child tree') (graded : tree.Graded)
    (fits : tree'.nodes.Fits) : tree'.Graded := by
  have split {id : NodeId} {node : Node} (here : tree'.nodes.get? id = some node) :=
    bears.cases graded.sound fits here
  constructor
  · rw [bears.nodes]
    exact graded.sound.insert child
  · intro id node here
    obtain ⟨_, rfl⟩ | found := split here
    · exact bears.defined graded
    · exact graded.defined id node found
  · intro id node here
    rw [bears.nextSeq]
    obtain ⟨_, rfl⟩ | found := split here
    · rw [bears.seq]
      exact Nat.lt_succ_self _
    · exact (graded.seqs id node found).trans (Nat.lt_succ_self _)
  · intro id id' node node' here here' same
    obtain ⟨new, rfl⟩ | found := split here <;> obtain ⟨new', rfl⟩ | found' := split here'
    · exact new.trans new'.symm
    · have old := graded.seqs id' node' found'
      rw [← same, bears.seq] at old
      exact absurd old (Nat.lt_irrefl _)
    · have old := graded.seqs id node found
      rw [same, bears.seq] at old
      exact absurd old (Nat.lt_irrefl _)
    · exact graded.apart id id' node node' found found' same
  · intro id node above upper here parent hereUpper older
    obtain ⟨_, rfl⟩ | foundUpper := split hereUpper
    · -- nobody is younger than the new node
      obtain ⟨_, rfl⟩ | found := split here
      · exact absurd older (Nat.lt_irrefl _)
      · have old := graded.seqs id node found
        rw [bears.seq] at older
        omega
    · obtain ⟨_, rfl⟩ | found := split here
      · obtain ⟨top, _⟩ | ⟨above', upper', link, foundUpper', inner, bound⟩ :=
          heritage_ok bears.inherits
        · rw [top] at parent
          cases parent
        · rw [link] at parent
          cases parent
          rw [foundUpper] at foundUpper'
          cases foundUpper'
          rw [bound]
          exact ⟨inner, Double.le_refl (graded.defined above upper foundUpper)⟩
      · exact graded.inherits id node above upper found parent foundUpper older

end Bears

theorem Edit.graded (edit : Edit may torn tree tree') (graded : tree.Graded)
    (fits : tree'.nodes.Fits) : tree'.Graded := by
  obtain keeps | ⟨_, child, bears⟩ := edit.keeps_or_bears
  · exact keeps.graded graded
  · exact bears.graded graded fits

/-! ### Later trees -/

/-- Every node of a later tree is new, or it was there before with the same parent and no higher
bound. -/
structure Later (tree tree' : Tree) : Prop where
  nextSeq : tree.nextSeq ≤ tree'.nextSeq
  nodes : ∀ id later, tree'.nodes.get? id = some later → tree.nextSeq ≤ later.seq ∨
    ∃ node, tree.nodes.get? id = some node ∧ node.seq = later.seq ∧
      node.parent = later.parent ∧ node.bound ≤ later.bound

theorem Later.rfl (graded : tree.Graded) : tree.Later tree where
  nextSeq := Nat.le_refl _
  nodes id node found := .inr ⟨node, found, Eq.refl _, Eq.refl _,
    Double.le_refl (graded.defined id node found)⟩

theorem Later.trans (first : tree.Later tree') (second : tree'.Later tree'') :
    tree.Later tree'' where
  nextSeq := first.nextSeq.trans second.nextSeq
  nodes id last here := by
    obtain new | ⟨later, found, seq, parent, bound⟩ := second.nodes id last here
    · exact .inl (first.nextSeq.trans new)
    · obtain new | ⟨node, found', seq', parent', bound'⟩ := first.nodes id later found
      · exact .inl (new.trans_eq seq)
      · exact .inr ⟨node, found', seq'.trans seq, parent'.trans parent,
          Double.le_trans bound' bound⟩

theorem Edit.later (edit : Edit may torn tree tree') (graded : tree.Graded)
    (fits : tree'.nodes.Fits) : tree.Later tree' := by
  obtain keeps | ⟨_, child, bears⟩ := edit.keeps_or_bears
  · refine ⟨keeps.nextSeq.ge, fun id later here => ?_⟩
    obtain ⟨node, found, follows⟩ := keeps.nodes id later here
    exact .inr ⟨node, found, follows.seq.symm, follows.parent.symm,
      follows.bound_le (graded.defined id node found)⟩
  · refine ⟨by rw [bears.nextSeq]; omega, fun id later here => ?_⟩
    obtain ⟨_, rfl⟩ | found := bears.cases graded.sound fits here
    · exact .inl bears.seq.ge
    · exact (Later.rfl graded).nodes id later found

/-- Where nothing is removed every node stays. -/
theorem Edit.stays (edit : Edit may torn tree tree') (spared : .fell ∉ may)
    (sound : tree.nodes.Sound) (fits : tree'.nodes.Fits) (found : tree.nodes.get? id = some node) :
    ∃ later, tree'.nodes.get? id = some later ∧ later.seq = node.seq := by
  -- a node that is overwritten keeps its number
  have overwritten {other : NodeId} {old new : Node} (there : tree.nodes.get? other = some old)
      (seq : new.seq = old.seq) :
      ∃ later, (tree.nodes.set other new).get? id = some later ∧ later.seq = node.seq := by
    rw [SlotTable.get?_set there]
    by_cases same : id = other
    · rw [if_pos same]
      rw [same, there] at found
      cases found
      exact ⟨new, rfl, seq⟩
    · rw [if_neg same]
      exact ⟨node, found, rfl⟩
  cases edit with
  | beside nodes => exact ⟨node, nodes ▸ found, rfl⟩
  | write there _ _ seq => exact overwritten there seq
  | solve there => exact overwritten there rfl
  | raise there =>
    rw [requeue_nodes]
    exact overwritten there rfl
  | enqueue | dequeue => exact ⟨node, found, rfl⟩
  | create allowed inherits seq =>
    exact ⟨node, Bears.stays ⟨inherits, seq, rfl, rfl⟩ sound fits found, rfl⟩
  | remove allowed | tear allowed | wipe allowed => exact absurd allowed spared

namespace Edited

theorem slots_le (edited : Edited may torn tree tree') :
    tree.nodes.slots.size ≤ tree'.nodes.slots.size := by
  induction edited with
  | refl => exact Nat.le_refl _
  | tail _ last ih => exact ih.trans last.slots_le

theorem later (edited : Edited may torn tree tree') (graded : tree.Graded)
    (fits : tree'.nodes.Fits) : tree'.Graded ∧ tree.Later tree' := by
  induction edited with
  | refl => exact ⟨graded, .rfl graded⟩
  | tail _ last ih =>
    obtain ⟨graded', later⟩ := ih (last.slots_le.trans fits)
    exact ⟨last.graded graded' fits, later.trans (last.later graded' fits)⟩

theorem stays (edited : Edited may torn tree tree') (spared : .fell ∉ may) (graded : tree.Graded)
    (fits : tree'.nodes.Fits) (found : tree.nodes.get? id = some node) :
    ∃ later, tree'.nodes.get? id = some later ∧ later.seq = node.seq := by
  induction edited with
  | refl => exact ⟨node, found, Eq.refl _⟩
  | tail earlier last ih =>
    have fits' := last.slots_le.trans fits
    obtain ⟨middle, there, seq⟩ := ih fits'
    obtain ⟨graded', _⟩ := later earlier graded fits'
    obtain ⟨final, here, seq'⟩ := last.stays spared graded'.sound fits there
    exact ⟨final, here, seq'.trans seq⟩

theorem nextSeq_eq (edited : Edited may torn tree tree') (barren : .sprout ∉ may) :
    tree'.nextSeq = tree.nextSeq := by
  induction edited with
  | refl => rfl
  | tail _ last ih =>
    obtain keeps | ⟨allowed, _⟩ := last.keeps_or_bears
    · exact keeps.nextSeq.trans ih
    · exact absurd allowed barren

/-- A handle that names a node before and after edits that do not both create and remove nodes
names the same node. -/
theorem same (edited : Edited may torn tree tree') (oneWay : .fell ∉ may ∨ .sprout ∉ may)
    (graded : tree.Graded) (fits : tree'.nodes.Fits) (found : tree.nodes.get? id = some node)
    (found' : tree'.nodes.get? id = some node') : node'.seq = node.seq := by
  obtain spared | barren := oneWay
  · obtain ⟨later, here, seq⟩ := edited.stays spared graded fits found
    rw [found'] at here
    cases here
    exact seq
  · obtain ⟨graded', later⟩ := edited.later graded fits
    obtain new | ⟨old, there, seq, _⟩ := later.nodes id node' found'
    · have young := graded'.seqs id node' found'
      rw [edited.nextSeq_eq barren] at young
      omega
    · rw [found] at there
      cases there
      exact seq.symm

end Edited

end Tree

end BranchCutPrice
