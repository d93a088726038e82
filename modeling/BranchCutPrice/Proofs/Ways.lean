import BranchCutPrice.Proofs.Lineage

/-!
Ways to the root, as lists of nodes each of which is followed by its parent. There is one from
every node, which visits no node twice.
-/

namespace BranchCutPrice.Tree

variable {tree tree' : Tree} {id : NodeId} {ids ids' path : List NodeId}

/-- Every node of a list is followed by its parent, and the last one has none. -/
def Ascends (tree : Tree) : List NodeId → Prop
  | [] => True
  | id :: rest =>
      (∃ node, tree.nodes.get? id = some node ∧ rest.head? = node.parent) ∧ tree.Ascends rest

namespace Ascends

theorem of_append (ascends : tree.Ascends (ids ++ ids')) : tree.Ascends ids' := by
  induction ids with
  | nil => exact ascends
  | cons id rest ih => exact ih ascends.2

/-- There is one way from each node. -/
theorem unique (ascends : tree.Ascends ids) (ascends' : tree.Ascends ids')
    (same : ids.head? = ids'.head?) : ids = ids' := by
  induction ids generalizing ids' with
  | nil =>
    cases ids' with
    | nil => rfl
    | cons => cases same
  | cons id rest ih =>
    cases ids' with
    | nil => cases same
    | cons id' rest' =>
      obtain ⟨⟨node, found, parent⟩, upwards⟩ := ascends
      obtain ⟨⟨node', found', parent'⟩, upwards'⟩ := ascends'
      rw [List.head?_cons, List.head?_cons, Option.some.injEq] at same
      rw [← same, found] at found'
      cases found'
      rw [same, ih upwards upwards' (parent.trans parent'.symm)]

theorem nodup (ascends : tree.Ascends ids) : ids.Nodup := by
  induction ids with
  | nil => exact List.nodup_nil
  | cons id rest ih =>
    refine List.nodup_cons.2 ⟨fun again => ?_, ih ascends.2⟩
    -- the way from the second occurrence would be the whole way
    obtain ⟨before, after, split⟩ := List.append_of_mem again
    have upwards : tree.Ascends (before ++ id :: after) := split ▸ ascends.2
    have whole := ascends.unique upwards.of_append rfl
    have lengths := congrArg List.length whole
    rw [split] at lengths
    simp only [List.length_cons, List.length_append] at lengths
    omega

/-- A way that stays on another one ends it. -/
theorem suffix (ascends : tree.Ascends ids) (ascends' : tree.Ascends ids')
    (inside : ∀ id ∈ ids', id ∈ ids) : ids' <:+ ids := by
  cases ids' with
  | nil => exact List.nil_suffix
  | cons id rest =>
    obtain ⟨before, after, split⟩ := List.append_of_mem (inside id List.mem_cons_self)
    have upwards : tree.Ascends (before ++ id :: after) := split ▸ ascends
    rw [ascends'.unique upwards.of_append rfl]
    exact ⟨before, split.symm⟩

/-- Where the nodes of a way have the same parents it is one as well. -/
theorem transfer (ascends : tree.Ascends ids)
    (agree : ∀ id ∈ ids, ∀ node, tree.nodes.get? id = some node →
      ∃ other, tree'.nodes.get? id = some other ∧ other.parent = node.parent) :
    tree'.Ascends ids := by
  induction ids with
  | nil => trivial
  | cons id rest ih =>
    obtain ⟨⟨node, found, parent⟩, upwards⟩ := ascends
    obtain ⟨other, found', same⟩ := agree id List.mem_cons_self node found
    exact ⟨⟨other, found', parent.trans same.symm⟩,
      ih upwards fun id member => agree id (List.mem_cons_of_mem _ member)⟩

theorem live (ascends : tree.Ascends ids) :
    ∀ id ∈ ids, ∃ node, tree.nodes.get? id = some node := by
  induction ids with
  | nil => exact fun _ member => absurd member List.not_mem_nil
  | cons id rest ih =>
    obtain ⟨⟨node, found, _⟩, upwards⟩ := ascends
    intro other member
    obtain rfl | later := List.mem_cons.1 member
    · exact ⟨node, found⟩
    · exact ih upwards other later

theorem isChain (ascends : tree.Ascends ids) : ids.IsChain fun id above =>
    ∃ node, tree.nodes.get? id = some node ∧ node.parent = some above := by
  induction ids with
  | nil => exact .nil
  | cons id rest ih =>
    cases rest with
    | nil => exact .singleton id
    | cons above rest =>
      obtain ⟨⟨node, found, parent⟩, upwards⟩ := ascends
      exact .cons_cons ⟨node, found, parent.symm⟩ (ih upwards)

theorem top (ascends : tree.Ascends ids) (last : ids.getLast? = some id) :
    ∃ node, tree.nodes.get? id = some node ∧ node.parent = none := by
  induction ids with
  | nil => cases last
  | cons first rest ih =>
    obtain ⟨⟨node, found, parent⟩, upwards⟩ := ascends
    cases rest with
    | nil =>
      cases last
      exact ⟨node, found, parent.symm⟩
    | cons above rest =>
      rw [List.getLast?_cons_cons] at last
      exact ih upwards last

end Ascends

theorem ascends_of_climbs {steps : List (NodeId × Node)}
    (climbs : Climbs tree.nodes (fun _ => false) id steps) :
    tree.Ascends (steps.map Prod.fst) ∧ (steps.map Prod.fst).head? = some id := by
  induction climbs with
  | @last id node found ends =>
    obtain parent | stops := ends
    · exact ⟨⟨⟨node, found, parent.symm⟩, trivial⟩, rfl⟩
    · cases stops
  | @step id above node steps found parent goes climbs ih =>
    exact ⟨⟨⟨node, found, ih.2.trans parent.symm⟩, ih.1⟩, rfl⟩

theorem ascends_of_pathTo (walked : tree.pathTo id = .ok path) :
    tree.Ascends path.reverse ∧ path.reverse.head? = some id := by
  unfold pathTo at walked
  cases steps : tree.ascend (fun _ => false) tree.nodes.slots.size id with
  | error e => simp [steps, bind, Except.bind] at walked
  | ok taken =>
    rw [steps] at walked
    cases walked
    rw [List.reverse_reverse]
    exact ascends_of_climbs (climbs_of_ascend steps)

/-- In a shaped tree a way from the root is what walking back finds. -/
theorem Ascends.pathTo {loaded : List RowId} (ascends : tree.Ascends path.reverse)
    (shaped : (tree.desk loaded).Shaped) (last : path.reverse.head? = some id) :
    tree.pathTo id = .ok path := by
  obtain ⟨node, found⟩ := ascends.live id (List.mem_of_head? last)
  obtain ⟨walk, walked⟩ := pathTo_live shaped found
  obtain ⟨upwards, ends⟩ := ascends_of_pathTo walked
  rw [walked, List.reverse_injective (upwards.unique ascends (ends.trans last.symm))]

end BranchCutPrice.Tree
