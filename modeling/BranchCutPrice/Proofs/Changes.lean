import BranchCutPrice.Proofs.Edits
import BranchCutPrice.Proofs.Solutions
import BranchCutPrice.Session.Basic
import BranchCutPrice.Tree.Focus
import BranchCutPrice.Tree.Removal

/-!
The changes that operations make to a tree, its focus and the way there included. Leaving out
the focus they are edits.
-/

namespace BranchCutPrice

open BranchCutPrice.Action

/-! ### Trees -/

namespace Tree

/-- The tree with a node as its focus and the way to it as the active one. -/
def turned (tree : Tree) (id : NodeId) (path : List NodeId) : Tree :=
  { path.foldl (mark true) (tree.activePath.foldl (mark false) tree) with
    activePath := path, focus := some id }

/-- A change that an operation makes to a tree. Nodes are created and removed as far as `may`
allows it, only a torn tree keeps references to nodes that are gone, and the focus moves to
another node only if it `turns`. -/
inductive Change (may : Set Deed) (torn turns : Prop) : Tree → Tree → Prop where
  | beside {tree tree' : Tree} (nodes : tree'.nodes = tree.nodes) (queue : tree'.queue = tree.queue)
      (nextSeq : tree'.nextSeq = tree.nextSeq) (settings : tree'.settings = tree.settings)
      (path : tree'.activePath = tree.activePath) (focus : tree'.focus = tree.focus) :
      Change may torn turns tree tree'
  | write {tree : Tree} {id : NodeId} {node node' : Node}
      (found : tree.nodes.get? id = some node) (kind : node'.kind = .leaf ↔ node.kind = .leaf)
      (bound : node'.bound = node.bound) (seq : node'.seq = node.seq)
      (depth : node'.depth = node.depth) (parent : node'.parent = node.parent)
      (active : node'.active = node.active) : Change may torn turns tree (tree.setNode id node')
  | solve {tree : Tree} {id : NodeId} {node : Node} {payload : Payload}
      (found : tree.nodes.get? id = some node) (solved : payload.kind ≠ .leaf) :
      Change may torn turns tree
        { tree.setPayload id node payload with queue := tree.queue.erase id }
  | raise {tree : Tree} {id : NodeId} {node : Node} {bound : Float}
      (found : tree.nodes.get? id = some node) (leaf : node.kind = .leaf)
      (defined : bound.isNaN = false) (above : ¬bound ≤ node.bound) :
      Change may torn turns tree ((tree.setNode id { node with bound := bound }).requeue id
        { node with bound := bound })
  | enqueue {tree : Tree} {id : NodeId} {node : Node}
      (found : tree.nodes.get? id = some node) (leaf : node.kind = .leaf)
      (absent : ¬tree.queue.contains id = true) :
      Change may torn turns tree
        { tree with queue := tree.queue.push id node.bound node.depth node.seq }
  | dequeue {tree : Tree} {queue : LeafQueue}
      (selection : queue.selection = tree.queue.selection ∨
        queue.selection = tree.settings.selection)
      (part : queue.leaves.Subperm tree.queue.leaves) :
      Change may torn turns tree { tree with queue := queue }
  | create {tree : Tree} {child : Node} (allowed : .sprout ∈ may)
      (inherits : tree.heritage child.parent = .ok (child.bound, child.depth))
      (seq : child.seq = tree.nextSeq) (inactive : child.active = false) :
      Change may torn turns tree
        { tree with nodes := (tree.nodes.insert child).2, nextSeq := tree.nextSeq + 1 }
  | remove {tree : Tree} (allowed : .fell ∈ may) (id : NodeId) :
      Change may torn turns tree ({ tree with nodes := tree.nodes.erase id }.forget id)
  | tear {tree : Tree} (allowed : .fell ∈ may) (open' : torn) (id : NodeId) :
      Change may torn turns tree { tree with nodes := tree.nodes.erase id }
  | lose {tree tree' : Tree} (open' : torn) (nodes : tree'.nodes = tree.nodes)
      (queue : tree'.queue = tree.queue) (nextSeq : tree'.nextSeq = tree.nextSeq)
      (settings : tree'.settings = tree.settings) : Change may torn turns tree tree'
  | wipe {tree tree' : Tree} (allowed : .fell ∈ may)
      (nodes : tree'.nodes = tree.nodes.eraseAll tree.nodes.handles)
      (queue : tree'.queue = .empty tree.settings.selection)
      (nextSeq : tree'.nextSeq = tree.nextSeq) (settings : tree'.settings = tree.settings)
      (path : tree'.activePath = []) (focus : tree'.focus = none) :
      Change may torn turns tree tree'
  | turn {tree : Tree} {id : NodeId} {path : List NodeId} (allowed : turns)
      (walked : tree.pathTo id = .ok path) : Change may torn turns tree (tree.turned id path)

/-- Any number of changes. -/
def Changed (may : Set Deed) (torn turns : Prop) : Tree → Tree → Prop :=
  Relation.ReflTransGen (Change may torn turns)

variable {tree tree' tree'' : Tree} {may : Set Deed} {torn turns : Prop}

theorem Change.changed (change : Change may torn turns tree tree') :
    Changed may torn turns tree tree' :=
  .single change

theorem Changed.rfl : Changed may torn turns tree tree :=
  .refl

theorem Changed.trans (first : Changed may torn turns tree tree')
    (second : Changed may torn turns tree' tree'') : Changed may torn turns tree tree'' :=
  Relation.ReflTransGen.trans first second

instance : Std.Refl (Changed may torn turns) where
  refl _ := .rfl

instance : IsTrans Tree (Changed may torn turns) where
  trans _ _ _ first second := first.trans second

theorem marks_edited (active : Bool) (tree : Tree) (path : List NodeId) :
    Edited may torn tree (path.foldl (mark active) tree) := by
  induction path generalizing tree with
  | nil => exact .rfl
  | cons id rest ih =>
    have marked : Edited may torn tree (mark active tree id) := by
      unfold mark
      cases found : tree.nodes.get? id with
      | none => exact .rfl
      | some node => exact Edit.edited (.write found Iff.rfl rfl rfl rfl rfl)
    exact marked.trans (ih _)

theorem Change.edited (change : Change may torn turns tree tree') :
    Edited may torn tree tree' := by
  cases change with
  | beside nodes queue nextSeq settings => exact Edit.edited (.beside nodes queue nextSeq settings)
  | write found kind bound seq depth parent =>
    exact Edit.edited (.write found kind bound seq depth parent)
  | solve found solved => exact Edit.edited (.solve found solved)
  | raise found leaf defined above => exact Edit.edited (.raise found leaf defined above)
  | enqueue found leaf absent => exact Edit.edited (.enqueue found leaf absent)
  | dequeue selection part => exact Edit.edited (.dequeue selection part)
  | create allowed inherits seq => exact Edit.edited (.create allowed inherits seq)
  | remove allowed id =>
    have removed : Edited may torn tree
        { tree with nodes := tree.nodes.erase id, queue := tree.queue.erase id } :=
      Edit.edited (.remove allowed id)
    exact removed.trans (Edit.edited (.beside rfl rfl rfl rfl))
  | tear allowed open' id => exact Edit.edited (.tear allowed open' id)
  | lose open' nodes queue nextSeq settings =>
    exact Edit.edited (.beside nodes queue nextSeq settings)
  | wipe allowed nodes queue nextSeq settings =>
    exact Edit.edited (.wipe allowed nodes queue nextSeq settings)
  | @turn id path =>
    have cleared : Edited may torn tree (tree.activePath.foldl (mark false) tree) :=
      marks_edited false tree tree.activePath
    exact cleared.trans ((marks_edited true _ path).trans (Edit.edited (.beside rfl rfl rfl rfl)))

theorem Changed.edited (changed : Changed may torn turns tree tree') :
    Edited may torn tree tree' := by
  induction changed with
  | refl => exact .rfl
  | tail _ last ih => exact ih.trans last.edited

end Tree

/-- What an action does to the tree in its state are edits, even if it is refused. -/
def Action.Edits {σ α : Type} (act : Action σ α) (look : σ → Tree) (may : Set Deed)
    (torn : Prop) : Prop :=
  ∀ s, act.Reaches s fun s' => Tree.Edited may torn (look s) (look s')

/-! ### Trees and sessions with their relaxations -/

/-- What operations on a tree come to. They install no solution and unload no column. -/
structure Linked.Alters (may : Set Deed) (torn turns : Prop) (s s' : Linked Tree) : Prop where
  tree : Tree.Changed may torn turns s.own s'.own
  lp : Relaxation.Shifted False False s.lp s'.lp

/-- What operations on a session come to. The pools are left alone if they are `idle`, and columns
are unloaded only if they `clear`. -/
structure Session.Alters (may : Set Deed) (torn turns idle clears : Prop) (s s' : Session) :
    Prop where
  tree : Tree.Changed may torn turns s.tree s'.tree
  lp : Relaxation.Shifted True clears s.lp s'.lp
  pools : idle → s'.cutPool = s.cutPool ∧ s'.columnPool = s.columnPool

section Alters

variable {may : Set Deed} {torn turns idle clears : Prop}

instance : Std.Refl (Linked.Alters may torn turns) where
  refl _ := ⟨.rfl, .rfl⟩

instance : IsTrans (Linked Tree) (Linked.Alters may torn turns) where
  trans _ _ _ first second :=
    ⟨first.tree.trans second.tree, first.lp.trans second.lp⟩

instance : Std.Refl (Session.Alters may torn turns idle clears) where
  refl _ := ⟨.rfl, .rfl, fun _ => ⟨rfl, rfl⟩⟩

instance : IsTrans Session (Session.Alters may torn turns idle clears) where
  trans _ _ _ first second :=
    ⟨first.tree.trans second.tree, first.lp.trans second.lp,
      fun idle => ⟨(second.pools idle).1.trans (first.pools idle).1,
        (second.pools idle).2.trans (first.pools idle).2⟩⟩

end Alters

end BranchCutPrice
