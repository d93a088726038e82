import BranchCutPrice.Proofs.Slots
import BranchCutPrice.Tree.Lineage
import Mathlib.Data.List.Range

/-!
The shape of a tree. Nodes only name their parents and count their children; in a shaped
tree the counts are right, depths grow by one from parent to child, and the node without
parent is the root. So every walk towards the root ends, after fewer steps than there are
slots.
-/

namespace BranchCutPrice

/-- What the shape of a tree and the rows of its nodes depend on, and the loaded rows. -/
structure Desk where
  nodes : SlotTable .node Node
  root : Option NodeId
  focus : Option NodeId
  /-- The numbers of nodes created and freed so far. -/
  created : Nat
  freed : Nat
  loaded : List RowId

def Tree.desk (tree : Tree) (loaded : List RowId) : Desk :=
  ⟨tree.nodes, tree.root, tree.focus, tree.stats.created, tree.stats.freed, loaded⟩

/-- The number of nodes that name this one as their parent. -/
def childCount (nodes : SlotTable .node Node) (id : NodeId) : Nat :=
  nodes.total fun node => if node.parent = some id then 1 else 0

structure Desk.Shaped (desk : Desk) : Prop where
  sound : desk.nodes.Sound
  fits : desk.nodes.Fits
  parent : ∀ id node above, desk.nodes.get? id = some node → node.parent = some above →
    ∃ upper, desk.nodes.get? above = some upper ∧ upper.kind ≠ .leaf ∧
      node.depth = upper.depth + 1
  top : ∀ id node, desk.nodes.get? id = some node → node.parent = none →
    node.depth = 0 ∧ desk.root = some id
  root : ∀ id, desk.root = some id → ∃ node, desk.nodes.get? id = some node ∧ node.parent = none
  children : ∀ id node, desk.nodes.get? id = some node →
    node.payload.children = childCount desk.nodes id
  counted : desk.created = desk.freed + desk.nodes.live
  focus : ∀ id, desk.focus = some id → ∃ node, desk.nodes.get? id = some node

theorem childCount_pos {nodes : SlotTable .node Node} {id above : NodeId} {node : Node}
    (found : nodes.get? id = some node) (parent : node.parent = some above) :
    0 < childCount nodes above := by
  unfold childCount
  have split := SlotTable.total_erase
    (fun node : Node => if node.parent = some above then 1 else 0) found
  rw [if_pos parent] at split
  omega

theorem childCount_set {nodes : SlotTable .node Node} {id : NodeId} {node node' : Node}
    (found : nodes.get? id = some node) (parent : node'.parent = node.parent) (other : NodeId) :
    childCount (nodes.set id node') other = childCount nodes other := by
  have total := SlotTable.total_set
    (fun node : Node => if node.parent = some other then 1 else 0) node' found
  rw [parent] at total
  exact Nat.add_right_cancel total

theorem childCount_erase {nodes : SlotTable .node Node} {id : NodeId} {node : Node}
    (found : nodes.get? id = some node) (other : NodeId) :
    childCount (nodes.erase id) other + (if node.parent = some other then 1 else 0) =
      childCount nodes other :=
  SlotTable.total_erase _ found

theorem childCount_insert {nodes : SlotTable .node Node} (sound : nodes.Sound) (node : Node)
    (other : NodeId) : childCount (nodes.insert node).2 other =
      childCount nodes other + if node.parent = some other then 1 else 0 :=
  SlotTable.total_insert _ sound node

namespace Desk.Shaped

variable {desk : Desk} {id : NodeId} {node : Node}

theorem empty (settings : TreeSettings) (loaded : List RowId) :
    ((Tree.empty settings).desk loaded).Shaped where
  sound := SlotTable.sound_empty
  fits := Nat.zero_le _
  parent id node above found _ := by simp [Tree.empty, Tree.desk] at found
  top id node found _ := by simp [Tree.empty, Tree.desk] at found
  root id root := by simp [Tree.empty, Tree.desk] at root
  children id node found := by simp [Tree.empty, Tree.desk] at found
  counted := rfl
  focus id focus := by simp [Tree.empty, Tree.desk] at focus

/-- The loaded rows are no part of the shape. -/
theorem reload (shaped : desk.Shaped) (loaded : List RowId) :
    { desk with loaded := loaded }.Shaped :=
  ⟨shaped.sound, shaped.fits, shaped.parent, shaped.top, shaped.root, shaped.children,
    shaped.counted, shaped.focus⟩

theorem not_childless (shaped : desk.Shaped) (found : desk.nodes.get? id = some node)
    {child : NodeId} {lower : Node} (below : desk.nodes.get? child = some lower)
    (parent : lower.parent = some id) : 0 < node.payload.children := by
  rw [shaped.children id node found]
  exact childCount_pos below parent

theorem childCount_stale (shaped : desk.Shaped) (stale : desk.nodes.get? id = none) :
    childCount desk.nodes id = 0 := by
  refine SlotTable.total_eq_zero shaped.fits fun child lower found => ?_
  by_cases parent : lower.parent = some id
  · obtain ⟨upper, foundUpper, _⟩ := shaped.parent child lower id found parent
    rw [stale] at foundUpper
    cases foundUpper
  · exact if_neg parent

/-- The handles that name a node are determined by its slot. -/
private theorem slot_inj {nodes : SlotTable .node Node} {left right : NodeId} {a b : Node}
    (first : nodes.get? left = some a) (second : nodes.get? right = some b)
    (same : left.index = right.index) : a = b := by
  have here := SlotTable.get?_eq_some.1 first
  have there := SlotTable.get?_eq_some.1 second
  rw [same, there, Option.some.injEq, Slot.mk.injEq, Option.some.injEq] at here
  exact here.2.symm

/-- A node and its ancestors, whose depths go down to zero, all have slots of their own. -/
private theorem ancestors (shaped : desk.Shaped) (depth : Nat) :
    ∀ id node, desk.nodes.get? id = some node → node.depth = depth →
      ∃ path : List (NodeId × Node), path.map (fun step => step.2.depth) =
        (List.range (depth + 1)).reverse ∧
        ∀ step ∈ path, desk.nodes.get? step.1 = some step.2 := by
  induction depth with
  | zero =>
    intro id node found depth
    refine ⟨[(id, node)], ?_, fun step member => ?_⟩
    · simp [depth]
    · rw [List.mem_singleton] at member
      rw [member]
      exact found
  | succ depth ih =>
    intro id node found deeper
    cases parent : node.parent with
    | none =>
      have top := (shaped.top id node found parent).1
      omega
    | some above =>
      obtain ⟨upper, foundUpper, _, next⟩ := shaped.parent id node above found parent
      obtain ⟨path, depths, members⟩ := ih above upper foundUpper (by omega)
      refine ⟨(id, node) :: path, ?_, fun step member => ?_⟩
      · rw [List.map_cons, depths, List.range_succ (n := depth + 1), List.reverse_append]
        simp [deeper]
      · obtain rfl | member := List.mem_cons.1 member
        · exact found
        · exact members step member

theorem depth_lt (shaped : desk.Shaped) (found : desk.nodes.get? id = some node) :
    node.depth < desk.nodes.slots.size := by
  obtain ⟨path, depths, members⟩ := shaped.ancestors node.depth id node found rfl
  have distinct : (path.map fun step => step.1.index).Nodup := by
    have separate : (path.map fun step => step.2.depth).Nodup := by
      rw [depths]
      exact List.nodup_reverse.2 List.nodup_range
    refine List.pairwise_map.2 ((List.pairwise_map.1 separate).imp_of_mem ?_)
    intro left right memberLeft memberRight different same
    exact different (congrArg Node.depth
      (slot_inj (members left memberLeft) (members right memberRight) same))
  have inside : (path.map fun step => step.1.index) ⊆ List.range desk.nodes.slots.size := by
    intro index member
    obtain ⟨step, memberPath, rfl⟩ := List.mem_map.1 member
    have slot := SlotTable.get?_eq_some.1 (members step memberPath)
    exact List.mem_range.2 (Array.getElem?_eq_some_iff.1 slot).1
  have length : path.length = node.depth + 1 := by
    have lengths := congrArg List.length depths
    rwa [List.length_map, List.length_reverse, List.length_range] at lengths
  calc node.depth < path.length := by omega
    _ = (path.map fun step => step.1.index).length := (List.length_map _).symm
    _ ≤ (List.range desk.nodes.slots.size).length := (List.subperm_of_subset distinct inside).length_le
    _ = desk.nodes.slots.size := List.length_range

/-- Somewhere above every node is the root. -/
theorem root_of_live (shaped : desk.Shaped) (found : desk.nodes.get? id = some node) :
    ∃ root, desk.root = some root := by
  obtain ⟨path, depths, members⟩ := shaped.ancestors node.depth id node found rfl
  have zero : 0 ∈ path.map fun step => step.2.depth := by
    rw [depths, List.mem_reverse, List.mem_range]
    omega
  obtain ⟨step, memberPath, depth⟩ := List.mem_map.1 zero
  have foundStep := members step memberPath
  cases parent : step.2.parent with
  | none => exact ⟨step.1, (shaped.top _ _ foundStep parent).2⟩
  | some above =>
    obtain ⟨upper, _, _, next⟩ := shaped.parent _ _ above foundStep parent
    omega

theorem stale_of_bare (shaped : desk.Shaped) (bare : desk.root = none) (id : NodeId) :
    desk.nodes.get? id = none := by
  cases found : desk.nodes.get? id with
  | none => rfl
  | some node =>
    obtain ⟨root, rooted⟩ := shaped.root_of_live found
    cases bare.symm.trans rooted

end Desk.Shaped

end BranchCutPrice
