import BranchCutPrice.Proofs.Orderly
import BranchCutPrice.Proofs.Ways

/-!
The active path. Until the focus is moved operations only leave out what is gone from it, and no
other node is marked as active. When it is moved the path becomes the way from the root to the
focus.
-/

namespace BranchCutPrice

/-- What becomes of a node where its place and its mark stay. -/
structure Node.Stands (later node : Node) : Prop where
  seq : later.seq = node.seq
  parent : later.parent = node.parent
  active : later.active = node.active

theorem Node.Stands.rfl {node : Node} : node.Stands node :=
  ⟨Eq.refl _, Eq.refl _, Eq.refl _⟩

namespace Tree

variable {tree tree' tree'' : Tree} {id : NodeId} {node : Node} {ids ids' path : List NodeId}
  {may may' : Set Deed} {torn turns : Prop}

/-! ### Paths of which nodes may be gone -/

/-- The parent of a node is there, and older. -/
def Attached (tree : Tree) (node : Node) : Prop :=
  ∀ above, node.parent = some above →
    ∃ upper, tree.nodes.get? above = some upper ∧ upper.seq < node.seq

/-- Every node of a list is followed by its parent, unless that is gone. -/
def Hangs (tree : Tree) : List NodeId → Prop
  | [] => True
  | id :: rest =>
      (∀ node, tree.nodes.get? id = some node → tree.Attached node →
        rest.head? = node.parent) ∧ tree.Hangs rest

theorem Ascends.hangs (ascends : tree.Ascends ids) : tree.Hangs ids := by
  induction ids with
  | nil => trivial
  | cons id rest ih =>
    obtain ⟨⟨node, found, parent⟩, upwards⟩ := ascends
    refine ⟨fun node' found' _ => ?_, ih upwards⟩
    rw [found] at found'
    cases found'
    exact parent

theorem Hangs.ascends (hangs : tree.Hangs ids) (rooted : tree.Rooted)
    (live : ∀ id ∈ ids, ∃ node, tree.nodes.get? id = some node) : tree.Ascends ids := by
  induction ids with
  | nil => trivial
  | cons id rest ih =>
    obtain ⟨node, found⟩ := live id List.mem_cons_self
    refine ⟨⟨node, found, hangs.1 node found fun above => rooted id node above found⟩, ?_⟩
    exact ih hangs.2 fun id member => live id (List.mem_cons_of_mem _ member)

/-- The active path is marked and leads to the focus, but nodes may be gone from it. -/
structure Trailed (tree : Tree) : Prop where
  live : ∀ id ∈ tree.activePath, ∃ node, tree.nodes.get? id = some node
  marks : ∀ id node, tree.nodes.get? id = some node →
    (node.active = true ↔ id ∈ tree.activePath)
  hangs : tree.Hangs tree.activePath.reverse
  focus : ∀ id, tree.focus = some id → tree.activePath.getLast? = some id

theorem Trailed.empty (settings : TreeSettings) : (Tree.empty settings).Trailed where
  live _ member := absurd member List.not_mem_nil
  marks _ _ found := by simp [Tree.empty] at found
  hangs := trivial
  focus _ focus := nomatch focus

theorem Trailed.ascends (trailed : tree.Trailed) (rooted : tree.Rooted) :
    tree.Ascends tree.activePath.reverse :=
  trailed.hangs.ascends rooted fun id member => trailed.live id (List.mem_reverse.1 member)

/-! ### What is gone -/

/-- The nodes of the later tree were there before, or they are new and no part of the path, from
which only what is gone is left out. -/
structure Trims (tree tree' : Tree) : Prop where
  nextSeq : tree.nextSeq ≤ tree'.nextSeq
  nodes : ∀ id later, tree'.nodes.get? id = some later →
    tree.nodes.get? id = none ∧ tree.nextSeq ≤ later.seq ∧ later.active = false ∨
      ∃ node, tree.nodes.get? id = some node ∧ later.Stands node
  path : tree'.activePath = tree.activePath.filter tree'.contains
  focus : ∀ id, tree'.focus = some id → tree.focus = some id ∧ tree'.contains id = true

/-- A parent that is older than a node from before is from before as well. -/
theorem Attached.before {later : Node} (attached : tree'.Attached later)
    (trims : tree.Trims tree') (stands : later.Stands node) (old : node.seq < tree.nextSeq) :
    tree.Attached node := by
  intro above link
  obtain ⟨upper, hereUpper, older⟩ := attached above (stands.parent.trans link)
  rw [stands.seq] at older
  obtain ⟨_, new, _⟩ | ⟨upper', foundUpper, standsUpper⟩ := trims.nodes above upper hereUpper
  · omega
  · exact ⟨upper', foundUpper, standsUpper.seq ▸ older⟩

theorem Hangs.trim (hangs : tree.Hangs ids) (trims : tree.Trims tree') (graded : tree.Graded)
    (live : ∀ id ∈ ids, ∃ node, tree.nodes.get? id = some node) :
    tree'.Hangs (ids.filter tree'.contains) := by
  induction ids with
  | nil => trivial
  | cons id rest ih =>
    have upwards := ih hangs.2 fun id member => live id (List.mem_cons_of_mem _ member)
    by_cases stays : tree'.contains id = true
    · rw [List.filter_cons_of_pos stays]
      refine ⟨fun later here attached => ?_, upwards⟩
      obtain ⟨node, found⟩ := live id List.mem_cons_self
      obtain ⟨gone, _⟩ | ⟨node', found', stands⟩ := trims.nodes id later here
      · rw [gone] at found
        cases found
      rw [found] at found'
      cases found'
      have next := hangs.1 node found (attached.before trims stands (graded.seqs id node found))
      rw [← stands.parent] at next
      cases link : later.parent with
      | none =>
        rw [link] at next
        rw [List.head?_eq_none_iff.1 next]
        rfl
      | some above =>
        obtain ⟨upper, hereUpper, _⟩ := attached above link
        rw [link] at next
        obtain ⟨others, split⟩ := List.head?_eq_some_iff.1 next
        have there : tree'.contains above = true := SlotTable.contains_iff.2 ⟨upper, hereUpper⟩
        rw [split, List.filter_cons_of_pos there]
        rfl
    · rw [List.filter_cons_of_neg stays]
      exact upwards

namespace Trims

theorem trailed (trims : tree.Trims tree') (trailed : tree.Trailed) (graded : tree.Graded) :
    tree'.Trailed := by
  constructor
  · intro id member
    rw [trims.path] at member
    exact SlotTable.contains_iff.1 (List.mem_filter.1 member).2
  · intro id later here
    have stays : tree'.contains id = true := SlotTable.contains_iff.2 ⟨later, here⟩
    rw [trims.path, List.mem_filter]
    obtain ⟨gone, _, inactive⟩ | ⟨node, found, stands⟩ := trims.nodes id later here
    · rw [inactive]
      refine iff_of_false nofun fun member => ?_
      obtain ⟨node, found⟩ := trailed.live id member.1
      rw [gone] at found
      cases found
    · rw [stands.active, trailed.marks id node found, and_iff_left stays]
  · rw [trims.path, ← List.filter_reverse]
    exact trailed.hangs.trim trims graded fun id member =>
      trailed.live id (List.mem_reverse.1 member)
  · intro id focus
    obtain ⟨focus, stays⟩ := trims.focus id focus
    obtain ⟨before, split⟩ := List.getLast?_eq_some_iff.1 (trailed.focus id focus)
    rw [trims.path, split, List.filter_append, List.filter_cons_of_pos stays, List.filter_nil,
      List.getLast?_concat]

/-- A change that removes nothing leaves the path as it is. -/
theorem of_live (trailed : tree.Trailed) (nextSeq : tree.nextSeq ≤ tree'.nextSeq)
    (nodes : ∀ id later, tree'.nodes.get? id = some later →
      tree.nodes.get? id = none ∧ tree.nextSeq ≤ later.seq ∧ later.active = false ∨
        ∃ node, tree.nodes.get? id = some node ∧ later.Stands node)
    (stays : ∀ id node, tree.nodes.get? id = some node → ∃ later, tree'.nodes.get? id = some later)
    (path : tree'.activePath = tree.activePath) (focus : tree'.focus = tree.focus) :
    tree.Trims tree' := by
  have there (id : NodeId) (member : id ∈ tree.activePath) : tree'.contains id = true := by
    obtain ⟨node, found⟩ := trailed.live id member
    exact SlotTable.contains_iff.2 (stays id node found)
  refine ⟨nextSeq, nodes, ?_, fun id same => ?_⟩
  · rw [path, List.filter_eq_self.2 there]
  · rw [focus] at same
    exact ⟨same, there id (List.mem_of_getLast? (trailed.focus id same))⟩

theorem of_nodes (trailed : tree.Trailed) (nodes : tree'.nodes = tree.nodes)
    (nextSeq : tree'.nextSeq = tree.nextSeq) (path : tree'.activePath = tree.activePath)
    (focus : tree'.focus = tree.focus) : tree.Trims tree' := by
  refine of_live trailed nextSeq.ge (fun id later here => ?_) (fun id node found => ?_) path focus
  · exact .inr ⟨later, nodes ▸ here, .rfl⟩
  · exact ⟨node, nodes ▸ found⟩

theorem of_set (trailed : tree.Trailed) {node' : Node} (found : tree.nodes.get? id = some node)
    (stands : node'.Stands node) (nodes : tree'.nodes = tree.nodes.set id node')
    (nextSeq : tree'.nextSeq = tree.nextSeq) (path : tree'.activePath = tree.activePath)
    (focus : tree'.focus = tree.focus) : tree.Trims tree' := by
  refine of_live trailed nextSeq.ge (fun other later here => ?_) (fun other before there => ?_)
    path focus
  · rw [nodes, SlotTable.get?_set found] at here
    split at here
    · rename_i same
      cases here
      exact .inr ⟨node, same ▸ found, stands⟩
    · exact .inr ⟨later, here, .rfl⟩
  · rw [nodes, SlotTable.get?_set found]
    split
    · exact ⟨node', rfl⟩
    · exact ⟨before, there⟩

theorem of_bears (trailed : tree.Trailed) (graded : tree.Graded) {child : Node}
    (bears : tree.Bears child tree') (fits : tree'.nodes.Fits) (inactive : child.active = false)
    (path : tree'.activePath = tree.activePath) (focus : tree'.focus = tree.focus) :
    tree.Trims tree' := by
  refine of_live trailed (by rw [bears.nextSeq]; omega) (fun id later here => ?_)
    (fun id node found => ⟨node, bears.stays graded.sound fits found⟩) path focus
  obtain ⟨rfl, rfl⟩ | found := bears.cases graded.sound fits here
  · exact .inl ⟨bears.fresh graded.sound fits, bears.seq.ge, inactive⟩
  · exact .inr ⟨later, found, .rfl⟩

theorem of_remove (trailed : tree.Trailed) (id : NodeId) :
    tree.Trims ({ tree with nodes := tree.nodes.erase id }.forget id) := by
  have look (other : NodeId) : ({ tree with nodes := tree.nodes.erase id }.forget id).nodes.get?
      other = if other = id then none else tree.nodes.get? other :=
    SlotTable.get?_erase _ _ _
  have stays {other : NodeId} {node : Node} (found : tree.nodes.get? other = some node)
      (apart : other ≠ id) :
      ({ tree with nodes := tree.nodes.erase id }.forget id).contains other = true :=
    SlotTable.contains_iff.2 ⟨node, (look other).trans ((if_neg apart).trans found)⟩
  refine ⟨Nat.le_refl _, fun other later here => ?_, ?_, fun other focus => ?_⟩
  · rw [look] at here
    split at here
    · cases here
    · exact .inr ⟨later, here, .rfl⟩
  · refine List.filter_congr fun other member => ?_
    obtain ⟨node, found⟩ := trailed.live other member
    by_cases same : other = id
    · have gone : ¬∃ later, ({ tree with nodes := tree.nodes.erase id }.forget id).nodes.get?
          other = some later := by
        rw [look, if_pos same]
        exact fun ⟨_, there⟩ => nomatch there
      rw [bne_eq_false_iff_eq.2 same]
      exact (Bool.eq_false_iff.2 fun holds => gone (SlotTable.contains_iff.1 holds)).symm
    · rw [bne_iff_ne.2 same, stays found same]
  · have split : (if tree.focus = some id then none else tree.focus) = some other := focus
    split at split
    · cases split
    · rename_i apart
      obtain ⟨node, found⟩ := trailed.live other (List.mem_of_getLast? (trailed.focus other split))
      refine ⟨split, stays found fun same => apart ?_⟩
      rw [split, same]

theorem of_wipe (fits : tree.nodes.Fits)
    (nodes : tree'.nodes = tree.nodes.eraseAll tree.nodes.handles)
    (nextSeq : tree'.nextSeq = tree.nextSeq) (path : tree'.activePath = [])
    (focus : tree'.focus = none) : tree.Trims tree' := by
  have gone (id : NodeId) : tree'.nodes.get? id = none := by
    rw [nodes]
    exact SlotTable.get?_eraseAll_handles fits id
  refine ⟨nextSeq.ge, fun id later here => ?_, ?_, fun id same => ?_⟩
  · rw [gone] at here
    cases here
  · rw [path]
    refine (List.filter_eq_nil_iff.2 fun id _ holds => ?_).symm
    obtain ⟨later, here⟩ := SlotTable.contains_iff.1 holds
    rw [gone] at here
    cases here
  · rw [focus] at same
    cases same

end Trims

theorem requeue_activePath (tree : Tree) (id : NodeId) (node : Node) :
    (tree.requeue id node).activePath = tree.activePath := by
  unfold requeue
  split <;> rfl

theorem requeue_focus (tree : Tree) (id : NodeId) (node : Node) :
    (tree.requeue id node).focus = tree.focus := by
  unfold requeue
  split <;> rfl

/-- While the focus is not moved nodes are only left out of the path. -/
theorem Change.trims (change : Change may False False tree tree') (trailed : tree.Trailed)
    (graded : tree.Graded) (fits : tree.nodes.Fits) (fits' : tree'.nodes.Fits) :
    tree.Trims tree' := by
  cases change with
  | beside nodes queue nextSeq settings path focus =>
    exact .of_nodes trailed nodes nextSeq path focus
  | write found kind bound seq depth parent active =>
    exact .of_set trailed found ⟨seq, parent, active⟩ rfl rfl rfl rfl
  | @solve id node payload found solved =>
    let later : Node := { node with payload := payload }
    have stands : later.Stands node := ⟨rfl, rfl, rfl⟩
    exact .of_set trailed found stands rfl rfl rfl rfl
  | @raise id node bound found leaf defined above =>
    let later : Node := { node with bound := bound }
    have stands : later.Stands node := ⟨rfl, rfl, rfl⟩
    exact .of_set trailed found stands (requeue_nodes _ _ _) (requeue_nextSeq _ _ _)
      (requeue_activePath _ _ _) (requeue_focus _ _ _)
  | enqueue | dequeue => exact .of_nodes trailed rfl rfl rfl rfl
  | create allowed inherits seq inactive =>
    exact .of_bears trailed graded ⟨inherits, seq, rfl, rfl⟩ fits' inactive rfl rfl
  | remove allowed id => exact .of_remove trailed id
  | tear _ open' | lose open' => exact open'.elim
  | wipe allowed nodes queue nextSeq settings path focus =>
    exact .of_wipe fits nodes nextSeq path focus
  | turn allowed => exact allowed.elim

/-! ### Moving the focus -/

theorem get?_marks (active : Bool) (tree : Tree) (path : List NodeId) (other : NodeId) :
    (path.foldl (mark active) tree).nodes.get? other = (tree.nodes.get? other).map fun node =>
      if other ∈ path then { node with active := active } else node := by
  induction path generalizing tree with
  | nil => simp
  | cons id rest ih =>
    have marked : (mark active tree id).nodes.get? other = (tree.nodes.get? other).map fun node =>
        if other = id then { node with active := active } else node := by
      unfold mark
      cases found : tree.nodes.get? id with
      | none =>
        by_cases same : other = id
        · simp [same, found]
        · simp [same]
      | some node =>
        rw [show (tree.setNode id { node with active := active }).nodes =
          tree.nodes.set id { node with active := active } from rfl, SlotTable.get?_set found]
        by_cases same : other = id
        · simp [same, found]
        · simp [same]
    rw [List.foldl_cons, ih, marked, Option.map_map]
    congr 1
    funext node
    by_cases same : other = id <;> by_cases member : other ∈ rest <;> simp [same, member]

/-- The nodes on the new path are marked, and no others. -/
theorem Trailed.get?_turned (trailed : tree.Trailed) (id : NodeId) (path : List NodeId)
    (other : NodeId) : (tree.turned id path).nodes.get? other =
      (tree.nodes.get? other).map fun node => { node with active := decide (other ∈ path) } := by
  change (path.foldl (mark true) (tree.activePath.foldl (mark false) tree)).nodes.get? other = _
  rw [get?_marks, get?_marks, Option.map_map]
  cases found : tree.nodes.get? other with
  | none => rfl
  | some node =>
    have marks := trailed.marks other node found
    by_cases before : other ∈ tree.activePath <;> by_cases after : other ∈ path
    · simp [before, after]
    · simp [before, after]
    · simp [before, after]
    · have inactive : node.active = false :=
        Bool.eq_false_iff.2 fun active => before (marks.1 active)
      simp [before, after, ← inactive]

theorem Trailed.turn (trailed : tree.Trailed) (walked : tree.pathTo id = .ok path) :
    (tree.turned id path).Trailed := by
  obtain ⟨ascends, last⟩ := ascends_of_pathTo walked
  have look := trailed.get?_turned id path
  have upwards : (tree.turned id path).Ascends path.reverse := by
    apply ascends.transfer
    intro other _ node found
    rw [look, found]
    exact ⟨_, rfl, rfl⟩
  constructor
  · intro other member
    exact upwards.live other (List.mem_reverse.2 member)
  · intro other later here
    rw [look] at here
    obtain ⟨node, _, rfl⟩ := Option.map_eq_some_iff.1 here
    exact decide_eq_true_iff
  · exact upwards.hangs
  · intro other focus
    cases focus
    rw [← List.head?_reverse]
    exact last

/-! ### Changes -/

/-- A change moves the focus, or it could be made by an operation that does not move it. -/
theorem Change.turned_or (change : Change may torn turns tree tree') (within : may ⊆ may') :
    (∃ id path, tree.pathTo id = .ok path ∧ tree' = tree.turned id path) ∨
      Change may' torn False tree tree' := by
  cases change with
  | beside nodes queue nextSeq settings path focus =>
    exact .inr (.beside nodes queue nextSeq settings path focus)
  | write found kind bound seq depth parent active =>
    exact .inr (.write found kind bound seq depth parent active)
  | solve found solved => exact .inr (.solve found solved)
  | raise found leaf defined above => exact .inr (.raise found leaf defined above)
  | enqueue found leaf absent => exact .inr (.enqueue found leaf absent)
  | dequeue selection part => exact .inr (.dequeue selection part)
  | create allowed inherits seq inactive =>
    exact .inr (.create (within allowed) inherits seq inactive)
  | remove allowed id => exact .inr (.remove (within allowed) id)
  | tear allowed open' id => exact .inr (.tear (within allowed) open' id)
  | lose open' nodes queue nextSeq settings => exact .inr (.lose open' nodes queue nextSeq settings)
  | wipe allowed nodes queue nextSeq settings path focus =>
    exact .inr (.wipe (within allowed) nodes queue nextSeq settings path focus)
  | turn allowed walked => exact .inl ⟨_, _, walked, rfl⟩

theorem Change.focus_eq (change : Change may False False tree tree') (spared : .fell ∉ may) :
    tree'.focus = tree.focus := by
  cases change with
  | beside nodes queue nextSeq settings path focus => exact focus
  | raise => exact requeue_focus _ _ _
  | write | solve | enqueue | dequeue | create => rfl
  | remove allowed | wipe allowed => exact absurd allowed spared
  | tear _ open' | lose open' => exact open'.elim
  | turn allowed => exact allowed.elim

namespace Changed

theorem slots_le (changed : Changed may torn turns tree tree') :
    tree.nodes.slots.size ≤ tree'.nodes.slots.size :=
  changed.edited.slots_le

theorem graded (changed : Changed may torn turns tree tree') (graded : tree.Graded)
    (fits : tree'.nodes.Fits) : tree'.Graded :=
  (changed.edited.later graded fits).1

theorem trailed (changed : Changed may False turns tree tree') (trailed : tree.Trailed)
    (graded : tree.Graded) (fits : tree'.nodes.Fits) : tree'.Trailed := by
  induction changed with
  | refl => exact trailed
  | @tail tree₁ tree₂ earlier last ih =>
    have fits₁ : tree₁.nodes.Fits := last.changed.slots_le.trans fits
    obtain ⟨id, path, walked, rfl⟩ | still := last.turned_or (Set.Subset.refl may)
    · exact (ih fits₁).turn walked
    · have graded₁ : tree₁.Graded := Changed.graded earlier graded fits₁
      exact (still.trims (ih fits₁) graded₁ fits₁ fits).trailed (ih fits₁) graded₁

/-- If nothing is removed and there is no focus in the end it was not moved. -/
theorem still (changed : Changed may False turns tree tree') (spared : .fell ∉ may)
    (within : may ⊆ may') (loose : tree'.focus = none) : Changed may' False False tree tree' := by
  induction changed with
  | refl => exact .rfl
  | tail earlier last ih =>
    obtain ⟨id, path, _, rfl⟩ | still := last.turned_or (Set.Subset.refl may)
    · cases loose
    · have before := ih ((still.focus_eq spared).symm.trans loose)
      obtain ⟨id, path, _, rfl⟩ | wider := still.turned_or within
      · cases loose
      · exact before.trans wider.changed

end Changed

/-! ### What is left -/

/-- Every node of the later tree is new and not active, or it stands since before. -/
structure Carries (tree tree' : Tree) : Prop where
  nextSeq : tree.nextSeq ≤ tree'.nextSeq
  nodes : ∀ id later, tree'.nodes.get? id = some later →
    tree.nextSeq ≤ later.seq ∧ later.active = false ∨
      ∃ node, tree.nodes.get? id = some node ∧ later.Stands node

theorem Carries.rfl : tree.Carries tree where
  nextSeq := Nat.le_refl _
  nodes _ node found := .inr ⟨node, found, .rfl⟩

theorem Carries.trans (first : tree.Carries tree') (second : tree'.Carries tree'') :
    tree.Carries tree'' where
  nextSeq := first.nextSeq.trans second.nextSeq
  nodes id last here := by
    obtain ⟨new, inactive⟩ | ⟨later, there, stands⟩ := second.nodes id last here
    · exact .inl ⟨first.nextSeq.trans new, inactive⟩
    · obtain ⟨new, inactive⟩ | ⟨node, found, stands'⟩ := first.nodes id later there
      · exact .inl ⟨new.trans_eq stands.seq.symm, stands.active.trans inactive⟩
      · exact .inr ⟨node, found, stands.seq.trans stands'.seq, stands.parent.trans stands'.parent,
          stands.active.trans stands'.active⟩

theorem Trims.carries (trims : tree.Trims tree') : tree.Carries tree' where
  nextSeq := trims.nextSeq
  nodes id later here := (trims.nodes id later here).imp_left fun new => new.2

theorem Changed.carries (changed : Changed may False False tree tree') (trailed : tree.Trailed)
    (graded : tree.Graded) (fits : tree'.nodes.Fits) : tree.Carries tree' := by
  induction changed with
  | refl => exact .rfl
  | @tail tree₁ tree₂ earlier last ih =>
    have fits₁ : tree₁.nodes.Fits := last.changed.slots_le.trans fits
    have trailed₁ : tree₁.Trailed := Changed.trailed earlier trailed graded fits₁
    have graded₁ : tree₁.Graded := Changed.graded earlier graded fits₁
    exact (ih fits₁).trans (last.trims trailed₁ graded₁ fits₁ fits).carries

/-- A node is still there. -/
def Retains (tree tree' : Tree) (id : NodeId) : Prop :=
  ∃ node later, tree.nodes.get? id = some node ∧ tree'.nodes.get? id = some later ∧
    later.seq = node.seq

/-- The active path ends with the last node of the former one that is still there. -/
def Shortens (tree tree' : Tree) : Prop :=
  ∃ gone, tree.activePath = tree'.activePath ++ gone ∧
    (∀ id ∈ tree'.activePath, tree.Retains tree' id) ∧ ∀ id ∈ gone, ¬tree.Retains tree' id

theorem Carries.shortens (carries : tree.Carries tree') (trailed : tree.Trailed)
    (trailed' : tree'.Trailed) (rooted : tree.Rooted) (rooted' : tree'.Rooted)
    (graded : tree.Graded) : tree.Shortens tree' := by
  have ascends := trailed.ascends rooted
  have stood (id : NodeId) (member : id ∈ tree'.activePath) : id ∈ tree.activePath ∧
      ∃ node later, tree.nodes.get? id = some node ∧ tree'.nodes.get? id = some later ∧
        later.Stands node := by
    obtain ⟨later, here⟩ := trailed'.live id member
    have active := (trailed'.marks id later here).2 member
    obtain ⟨_, inactive⟩ | ⟨node, found, stands⟩ := carries.nodes id later here
    · rw [inactive] at active
      cases active
    · rw [stands.active] at active
      exact ⟨(trailed.marks id node found).1 active, node, later, found, here, stands⟩
  have before : tree.Ascends tree'.activePath.reverse := by
    refine (trailed'.ascends rooted').transfer fun id member later here => ?_
    obtain ⟨_, node, later', found, here', stands⟩ := stood id (List.mem_reverse.1 member)
    rw [here] at here'
    cases here'
    exact ⟨node, found, stands.parent.symm⟩
  have inside : ∀ id ∈ tree'.activePath.reverse, id ∈ tree.activePath.reverse :=
    fun id member => List.mem_reverse.2 (stood id (List.mem_reverse.1 member)).1
  obtain ⟨gone, split⟩ := List.reverse_suffix.1 (ascends.suffix before inside)
  refine ⟨gone, split.symm, fun id member => ?_, fun id member retained => ?_⟩
  · obtain ⟨_, node, later, found, here, stands⟩ := stood id member
    exact ⟨node, later, found, here, stands.seq⟩
  · obtain ⟨node, later, found, here, seq⟩ := retained
    have distinct : (tree'.activePath ++ gone).Nodup := split ▸ List.nodup_reverse.1 ascends.nodup
    have old := graded.seqs id node found
    obtain ⟨new, _⟩ | ⟨node', found', stands⟩ := carries.nodes id later here
    · omega
    · rw [found] at found'
      cases found'
      have member' : id ∈ tree.activePath := split ▸ List.mem_append_right _ member
      have active := (trailed.marks id node found).2 member'
      rw [← stands.active] at active
      exact List.disjoint_of_nodup_append distinct ((trailed'.marks id later here).1 active) member

end Tree

end BranchCutPrice
