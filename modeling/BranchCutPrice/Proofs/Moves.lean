import BranchCutPrice.Proofs.Lineage
import Mathlib.Data.Set.Basic
import Mathlib.Logic.Relation

/-!
The moves that change the desk. Every operation on a tree makes a number of these, so what
each of them preserves holds throughout every run. A shaped tree stays shaped as long as
the numbers of its slots fit.
-/

namespace BranchCutPrice

namespace Payload

variable {slot : Nat} {payload payload' : Payload}

theorem captureChild_ok (captured : payload.captureChild slot = .ok payload') :
    payload.kind ≠ .leaf ∧ payload'.kind = payload.kind ∧ payload'.rows = payload.rows ∧
      payload'.isSubroot = payload.isSubroot ∧ payload'.children = payload.children + 1 ∧
      payload'.basis? = payload.basis? := by
  cases payload <;> cases captured <;> simp [kind, rows, isSubroot, children, basis?]

theorem releaseChild_ok (released : payload.releaseChild slot = .ok payload') :
    payload.kind ≠ .leaf ∧ payload'.kind = payload.kind ∧ payload'.rows = payload.rows ∧
      payload'.isSubroot = payload.isSubroot ∧ payload.children = payload'.children + 1 ∧
      payload'.basis? = payload.basis? := by
  cases payload with
  | leaf basis added => cases released
  | fork added count =>
    cases count <;> cases released
    simp [kind, rows, isSubroot, children, basis?]
  | subroot rows count =>
    cases count <;> cases released
    simp [kind, Payload.rows, isSubroot, children, basis?]

/-- The last child can be released. -/
theorem releaseChild_live (inner : payload.kind ≠ .leaf) (children : 0 < payload.children)
    (slot : Nat) : ∃ payload', payload.releaseChild slot = .ok payload' := by
  cases payload with
  | leaf basis added => exact absurd rfl inner
  | fork added count =>
    cases count with
    | zero => exact absurd children (Nat.lt_irrefl 0)
    | succ count => exact ⟨_, rfl⟩
  | subroot rows count =>
    cases count with
    | zero => exact absurd children (Nat.lt_irrefl 0)
    | succ count => exact ⟨_, rfl⟩

/-- The same content with another number of children. Leaves have none. -/
def withChildren (count : Nat) : Payload → Payload
  | leaf basis added => leaf basis added
  | fork added _ => fork added count
  | subroot rows _ => subroot rows count

theorem captureChild_eq (inner : payload.kind ≠ .leaf) (slot : Nat) :
    payload.captureChild slot = .ok (payload.withChildren (payload.children + 1)) := by
  cases payload with
  | leaf => exact absurd rfl inner
  | fork | subroot => rfl

theorem releaseChild_eq (released : payload.releaseChild slot = .ok payload') :
    payload' = payload.withChildren (payload.children - 1) := by
  cases payload with
  | leaf basis added => cases released
  | fork added count =>
    cases count <;> cases released
    rfl
  | subroot rows count =>
    cases count <;> cases released
    rfl

@[simp]
theorem kind_withChildren (payload : Payload) (count : Nat) :
    (payload.withChildren count).kind = payload.kind := by
  cases payload <;> rfl

@[simp]
theorem withChildren_withChildren (payload : Payload) (before after : Nat) :
    (payload.withChildren before).withChildren after = payload.withChildren after := by
  cases payload <;> rfl

theorem children_withChildren (inner : payload.kind ≠ .leaf) (count : Nat) :
    (payload.withChildren count).children = count := by
  cases payload with
  | leaf => exact absurd rfl inner
  | fork | subroot => rfl

end Payload

/-- Kinds of moves. -/
inductive Deed where
  /-- Whatever leaves the other kinds out. -/
  | plain
  /-- The loaded rows change regardless of the focus. -/
  | reload
  /-- A leaf becomes a fork or a subroot. -/
  | solve
  | sprout
  | fell
  /-- A fork becomes a subroot. -/
  | flatten
  deriving DecidableEq

/-- The desk without a node, whose slot is empty in `nodes`. -/
def Desk.without (desk : Desk) (id : NodeId) (nodes : SlotTable .node Node) : Desk where
  nodes := nodes
  root := if desk.root = some id then none else desk.root
  focus := if desk.focus = some id then none else desk.focus
  created := desk.created
  freed := desk.freed + 1
  loaded := desk.loaded

@[simp]
theorem Desk.nodes_without (desk : Desk) (id : NodeId) (nodes : SlotTable .node Node) :
    (desk.without id nodes).nodes = nodes :=
  rfl

inductive Move : Deed → Desk → Desk → Prop where
  | reload {desk : Desk} (loaded : List RowId) : Move .reload desk { desk with loaded := loaded }
  /-- Without a focus nothing is said of the loaded rows. Nothing is said either once a
  node has a row twice, as such a node cannot be loaded. -/
  | adjust {desk : Desk} {loaded : List RowId}
      (loose : desk.focus = none ∨ ∃ id rows, Replays desk.nodes id rows ∧ ¬rows.Nodup) :
      Move .plain desk { desk with loaded := loaded }
  | write {desk : Desk} {id : NodeId} {node node' : Node}
      (found : desk.nodes.get? id = some node) (payload : node'.payload = node.payload)
      (parent : node'.parent = node.parent) (depth : node'.depth = node.depth) :
      Move .plain desk { desk with nodes := desk.nodes.set id node' }
  | record {desk : Desk} {id : NodeId} {node : Node} {basis : BasisId} {added : List RowId}
      {row : RowId} (found : desk.nodes.get? id = some node)
      (leaf : node.payload = .leaf basis added) (focus : desk.focus = some id)
      (fresh : row ∉ desk.loaded) :
      Move .plain desk { desk with
        nodes := desk.nodes.set id { node with payload := .leaf basis (added ++ [row]) }
        loaded := desk.loaded ++ [row] }
  | solve {desk : Desk} {id : NodeId} {node : Node} {basis : BasisId} {added : List RowId}
      {payload : Payload} (found : desk.nodes.get? id = some node)
      (leaf : node.payload = .leaf basis added)
      (solved : payload = .fork added 0 ∨
        desk.focus = some id ∧ payload = .subroot desk.loaded 0) :
      Move .solve desk { desk with nodes := desk.nodes.set id { node with payload := payload } }
  | flatten {desk : Desk} {id : NodeId} {node : Node} {added : List RowId} {children : Nat}
      (found : desk.nodes.get? id = some node) (fork : node.payload = .fork added children)
      (focus : desk.focus = some id) :
      Move .flatten desk { desk with
        nodes := desk.nodes.set id { node with payload := .subroot desk.loaded children } }
  | load {desk : Desk} {id : NodeId} {rows : List RowId} (replays : Replays desk.nodes id rows) :
      Move .plain desk { desk with focus := some id, loaded := rows }
  | plant {desk : Desk} {child : Node} {basis : BasisId} (bare : desk.root = none)
      (leaf : child.payload = .leaf basis []) (parent : child.parent = none)
      (depth : child.depth = 0) :
      Move .sprout desk { desk with
        nodes := (desk.nodes.insert child).2
        root := some (desk.nodes.insert child).1
        created := desk.created + 1 }
  | sprout {desk : Desk} {above : NodeId} {upper child : Node} {payload : Payload}
      {basis : BasisId} (found : desk.nodes.get? above = some upper)
      (captured : upper.payload.captureChild above.index = .ok payload)
      (leaf : child.payload = .leaf basis []) (parent : child.parent = some above)
      (depth : child.depth = upper.depth + 1) :
      Move .sprout desk { desk with
        nodes := ((desk.nodes.set above { upper with payload := payload }).insert child).2
        created := desk.created + 1 }
  | fellRoot {desk : Desk} {id : NodeId} {node : Node} (found : desk.nodes.get? id = some node)
      (childless : node.payload.children = 0) (parent : node.parent = none) :
      Move .fell desk (desk.without id (desk.nodes.erase id))
  | fell {desk : Desk} {id above : NodeId} {node upper : Node} {payload : Payload}
      (found : desk.nodes.get? id = some node) (childless : node.payload.children = 0)
      (parent : node.parent = some above)
      (foundUpper : (desk.nodes.erase id).get? above = some upper)
      (released : upper.payload.releaseChild above.index = .ok payload) :
      Move .fell desk (desk.without id
        ((desk.nodes.erase id).set above { upper with payload := payload }))
  | wipe {desk : Desk} :
      Move .fell desk { desk with
        nodes := desk.nodes.eraseAll desk.nodes.handles
        root := none
        focus := none
        freed := desk.freed + desk.nodes.handles.length }

/-- Any number of moves of some kinds. -/
def Moves (may : Set Deed) : Desk → Desk → Prop :=
  Relation.ReflTransGen fun desk desk' => ∃ deed ∈ may, Move deed desk desk'

namespace Moves

variable {may : Set Deed} {desk desk' desk'' : Desk}

theorem rfl : Moves may desk desk :=
  .refl

theorem one {deed : Deed} (move : Move deed desk desk') (allowed : deed ∈ may) :
    Moves may desk desk' :=
  .single ⟨deed, allowed, move⟩

theorem trans (first : Moves may desk desk') (second : Moves may desk' desk'') :
    Moves may desk desk'' :=
  Relation.ReflTransGen.trans first second

theorem mono {more : Set Deed} (subset : may ⊆ more) (moves : Moves may desk desk') :
    Moves more desk desk' :=
  Relation.ReflTransGen.mono (fun _ _ ⟨deed, allowed, move⟩ => ⟨deed, subset allowed, move⟩)
    _ _ moves

end Moves

/-- Slots are never given back. -/
theorem Move.slots_le {deed : Deed} {desk desk' : Desk} (move : Move deed desk desk') :
    desk.nodes.slots.size ≤ desk'.nodes.slots.size := by
  cases move with
  | plant =>
    exact SlotTable.size_le_insert _ _
  | @sprout _ above upper child payload =>
    refine Nat.le_trans ?_ (SlotTable.size_le_insert _ child)
    rw [SlotTable.size_set]
  | _ => simp [Desk.without]

/-- Only new nodes take new slots. -/
theorem Move.slots_eq {deed : Deed} {desk desk' : Desk} (move : Move deed desk desk')
    (other : deed ≠ .sprout) : desk'.nodes.slots.size = desk.nodes.slots.size := by
  cases move with
  | plant | sprout => exact absurd rfl other
  | _ => simp [Desk.without]

theorem Move.sound {deed : Deed} {desk desk' : Desk} (move : Move deed desk desk')
    (sound : desk.nodes.Sound) : desk'.nodes.Sound := by
  cases move with
  | reload | adjust | load => exact sound
  | write | record | solve | flatten => exact sound.set _ _
  | plant => exact sound.insert _
  | sprout => exact (sound.set _ _).insert _
  | fellRoot => exact sound.erase _
  | fell => exact (sound.erase _).set _ _
  | wipe => exact sound.eraseAll _

/-- What a shaped desk is apart from the numbers that it keeps of its nodes. -/
structure Desk.Framed (desk : Desk) : Prop where
  sound : desk.nodes.Sound
  fits : desk.nodes.Fits
  parent : ∀ id node above, desk.nodes.get? id = some node → node.parent = some above →
    ∃ upper, desk.nodes.get? above = some upper ∧ upper.kind ≠ .leaf ∧
      node.depth = upper.depth + 1
  top : ∀ id node, desk.nodes.get? id = some node → node.parent = none →
    node.depth = 0 ∧ desk.root = some id
  root : ∀ id, desk.root = some id → ∃ node, desk.nodes.get? id = some node ∧ node.parent = none
  focus : ∀ id, desk.focus = some id → ∃ node, desk.nodes.get? id = some node

namespace Desk.Framed

variable {desk : Desk} {id above : NodeId} {node upper child : Node}

/-- A node may change in place as long as its parent and its depth stay. -/
theorem set (framed : desk.Framed) (found : desk.nodes.get? id = some node) (node' : Node)
    (parent : node'.parent = node.parent) (depth : node'.depth = node.depth)
    (kind : node.kind ≠ .leaf → node'.kind ≠ .leaf) :
    { desk with nodes := desk.nodes.set id node' }.Framed := by
  have look := SlotTable.get?_set found node'
  -- every node of either table stands for one of the other
  have back (other : NodeId) (new : Node) (here : (desk.nodes.set id node').get? other = some new) :
      ∃ old, desk.nodes.get? other = some old ∧ new.parent = old.parent ∧
        new.depth = old.depth := by
    rw [look] at here
    by_cases same : other = id
    · rw [if_pos same, Option.some.injEq] at here
      subst here same
      exact ⟨node, found, parent, depth⟩
    · rw [if_neg same] at here
      exact ⟨new, here, rfl, rfl⟩
  have forth (other : NodeId) (old : Node) (here : desk.nodes.get? other = some old) :
      ∃ new, (desk.nodes.set id node').get? other = some new ∧ new.parent = old.parent ∧
        new.depth = old.depth ∧ (old.kind ≠ .leaf → new.kind ≠ .leaf) := by
    rw [look]
    by_cases same : other = id
    · subst same
      rw [found, Option.some.injEq] at here
      subst here
      exact ⟨node', if_pos rfl, parent, depth, kind⟩
    · exact ⟨old, by rw [if_neg same]; exact here, rfl, rfl, fun inner => inner⟩
  refine ⟨framed.sound.set id node', ?_, ?_, ?_, ?_, ?_⟩
  · unfold SlotTable.Fits
    rw [SlotTable.size_set]
    exact framed.fits
  · intro other new above here link
    obtain ⟨old, there, parents, depths⟩ := back other new here
    obtain ⟨upper, foundUpper, inner, next⟩ :=
      framed.parent other old above there (parents.symm.trans link)
    obtain ⟨upper', foundUpper', _, depthUpper, innerUpper⟩ := forth above upper foundUpper
    exact ⟨upper', foundUpper', innerUpper inner, by omega⟩
  · intro other new here link
    obtain ⟨old, there, parents, depths⟩ := back other new here
    have top := framed.top other old there (parents.symm.trans link)
    exact ⟨depths.trans top.1, top.2⟩
  · intro other root
    obtain ⟨old, there, link⟩ := framed.root other root
    obtain ⟨new, here, parents, _⟩ := forth other old there
    exact ⟨new, here, parents.trans link⟩
  · intro other focus
    obtain ⟨old, there⟩ := framed.focus other focus
    obtain ⟨new, here, _⟩ := forth other old there
    exact ⟨new, here⟩

/-- A new node below another one. -/
theorem insert (framed : desk.Framed) (found : desk.nodes.get? above = some upper)
    (inner : upper.kind ≠ .leaf) (parent : child.parent = some above)
    (depth : child.depth = upper.depth + 1) (fits : (desk.nodes.insert child).2.Fits) :
    { desk with
      nodes := (desk.nodes.insert child).2
      created := desk.created + 1 }.Framed := by
  have fresh := SlotTable.get?_new framed.sound fits
  have look := SlotTable.get?_insert framed.sound fits
  have stays (other : NodeId) (old : Node) (there : desk.nodes.get? other = some old) :
      (desk.nodes.insert child).2.get? other = some old := by
    rw [look, if_neg, there]
    rintro rfl
    rw [fresh] at there
    cases there
  refine ⟨framed.sound.insert child, fits, ?_, ?_, ?_, ?_⟩
  · intro other new above' here link
    rw [look] at here
    split at here
    · cases here
      rw [parent, Option.some.injEq] at link
      subst link
      exact ⟨upper, stays above upper found, inner, depth⟩
    · obtain ⟨upper', foundUpper, kept⟩ := framed.parent other new above' here link
      exact ⟨upper', stays above' upper' foundUpper, kept⟩
  · intro other new here link
    rw [look] at here
    split at here
    · cases here
      rw [parent] at link
      cases link
    · exact framed.top other new here link
  · intro other root
    obtain ⟨old, there, link⟩ := framed.root other root
    exact ⟨old, stays other old there, link⟩
  · intro other focus
    obtain ⟨old, there⟩ := framed.focus other focus
    exact ⟨old, stays other old there⟩

/-- A node goes that no other one names as its parent. -/
theorem erase (framed : desk.Framed)
    (childless : ∀ other lower, desk.nodes.get? other = some lower → lower.parent ≠ some id) :
    (desk.without id (desk.nodes.erase id)).Framed := by
  have look := SlotTable.get?_erase desk.nodes id
  have back (other : NodeId) (old : Node) (here : (desk.nodes.erase id).get? other = some old) :
      other ≠ id ∧ desk.nodes.get? other = some old := by
    rw [look] at here
    split at here
    · cases here
    · exact ⟨‹_›, here⟩
  have stays (other : NodeId) (different : other ≠ id) :
      (desk.nodes.erase id).get? other = desk.nodes.get? other := by
    rw [look, if_neg different]
  refine ⟨framed.sound.erase id, ?_, ?_, ?_, ?_, ?_⟩
  · change (desk.nodes.erase id).slots.size ≤ _
    rw [SlotTable.size_erase]
    exact framed.fits
  · intro other old above here link
    obtain ⟨_, there⟩ := back other old here
    obtain ⟨upper, foundUpper, kept⟩ := framed.parent other old above there link
    have different : above ≠ id := by
      rintro rfl
      exact childless other old there link
    exact ⟨upper, (stays above different).trans foundUpper, kept⟩
  · intro other old here link
    obtain ⟨different, there⟩ := back other old here
    have top := framed.top other old there link
    refine ⟨top.1, ?_⟩
    simp only [without]
    rw [top.2, if_neg]
    simpa using different
  · intro other root
    simp only [without] at root
    split at root
    · cases root
    · rename_i kept
      obtain ⟨old, there, link⟩ := framed.root other root
      refine ⟨old, (stays other ?_).trans there, link⟩
      rintro rfl
      exact kept root
  · intro other focus
    simp only [without] at focus
    split at focus
    · cases focus
    · rename_i kept
      obtain ⟨old, there⟩ := framed.focus other focus
      refine ⟨old, (stays other ?_).trans there⟩
      rintro rfl
      exact kept focus

/-- The numbers complete the shape. -/
theorem shaped (framed : desk.Framed)
    (children : ∀ id node, desk.nodes.get? id = some node →
      node.payload.children = childCount desk.nodes id)
    (counted : desk.created = desk.freed + desk.nodes.live) : desk.Shaped :=
  ⟨framed.sound, framed.fits, framed.parent, framed.top, framed.root, children, counted,
    framed.focus⟩

end Desk.Framed

namespace Desk.Shaped

variable {desk : Desk} {id : NodeId} {node : Node}

theorem framed (shaped : desk.Shaped) : desk.Framed :=
  ⟨shaped.sound, shaped.fits, shaped.parent, shaped.top, shaped.root, shaped.focus⟩

/-- A node may change in place as long as its parent, its depth and its children stay. -/
theorem rewrite (shaped : desk.Shaped) (found : desk.nodes.get? id = some node) {node' : Node}
    (parent : node'.parent = node.parent) (depth : node'.depth = node.depth)
    (children : node'.payload.children = node.payload.children)
    (kind : node.kind ≠ .leaf → node'.kind ≠ .leaf) :
    { desk with nodes := desk.nodes.set id node' }.Shaped := by
  apply (shaped.framed.set found node' parent depth kind).shaped
  · intro other new here
    rw [childCount_set found parent]
    rw [SlotTable.get?_set found] at here
    split at here
    · rename_i same
      cases here
      rw [children, same]
      exact shaped.children id node found
    · exact shaped.children other new here
  · change desk.created = desk.freed + (desk.nodes.set id node').live
    rw [SlotTable.live_set]
    exact shaped.counted

/-- The first node of a tree. -/
theorem plant (shaped : desk.Shaped) (bare : desk.root = none) {child : Node}
    {basis : BasisId} (leaf : child.payload = .leaf basis []) (parent : child.parent = none)
    (depth : child.depth = 0) (fits : (desk.nodes.insert child).2.Fits) :
    { desk with
      nodes := (desk.nodes.insert child).2
      root := some (desk.nodes.insert child).1
      created := desk.created + 1 }.Shaped := by
  have stale := shaped.stale_of_bare bare
  have look (other : NodeId) : (desk.nodes.insert child).2.get? other =
      if other = (desk.nodes.insert child).1 then some child else none := by
    rw [SlotTable.get?_insert shaped.sound fits, stale]
  have single (other : NodeId) (new : Node)
      (here : (desk.nodes.insert child).2.get? other = some new) :
      other = (desk.nodes.insert child).1 ∧ new = child := by
    rw [look] at here
    split at here
    · exact ⟨‹_›, (Option.some.inj here).symm⟩
    · cases here
  refine ⟨shaped.sound.insert child, fits, ?_, ?_, ?_, ?_, ?_, ?_⟩
  · intro other new above here link
    obtain ⟨_, rfl⟩ := single other new here
    rw [parent] at link
    cases link
  · intro other new here _
    obtain ⟨rfl, rfl⟩ := single other new here
    exact ⟨depth, rfl⟩
  · intro other root
    cases root
    exact ⟨child, by rw [look, if_pos rfl], parent⟩
  · intro other new here
    obtain ⟨rfl, rfl⟩ := single other new here
    rw [childCount_insert shaped.sound, parent, shaped.childCount_stale (stale _), leaf]
    simp [Payload.children]
  · change desk.created + 1 = desk.freed + (desk.nodes.insert child).2.live
    rw [SlotTable.live_insert, shaped.counted]
    exact Nat.add_assoc _ _ _
  · intro other focus
    obtain ⟨node, found⟩ := shaped.focus other focus
    rw [stale] at found
    cases found

/-- A new leaf, which its parent counts. -/
theorem sprout (shaped : desk.Shaped) {above : NodeId} {upper child : Node} {payload : Payload}
    {basis : BasisId} (found : desk.nodes.get? above = some upper)
    (captured : upper.payload.captureChild above.index = .ok payload)
    (leaf : child.payload = .leaf basis []) (parent : child.parent = some above)
    (depth : child.depth = upper.depth + 1)
    (fits : ((desk.nodes.set above { upper with payload := payload }).insert child).2.Fits) :
    { desk with
      nodes := ((desk.nodes.set above { upper with payload := payload }).insert child).2
      created := desk.created + 1 }.Shaped := by
  obtain ⟨inner, kind, _, _, children, _⟩ := Payload.captureChild_ok captured
  have inner' : ({ upper with payload := payload } : Node).kind ≠ .leaf := by
    rw [Node.kind, kind]
    exact inner
  have framed := shaped.framed.set found { upper with payload := payload } rfl rfl fun _ => inner'
  have set := SlotTable.get?_set found { upper with payload := payload }
  have foundAbove : (desk.nodes.set above { upper with payload := payload }).get? above =
      some { upper with payload := payload } := by
    rw [set, if_pos rfl]
  have fresh := SlotTable.get?_new framed.sound fits
  have look := SlotTable.get?_insert framed.sound fits
  have counted := childCount_insert framed.sound child
  have kept := childCount_set found
    (show ({ upper with payload := payload } : Node).parent = upper.parent from rfl)
  apply (framed.insert foundAbove inner' parent depth fits).shaped
  · intro other new here
    rw [counted, kept, parent]
    rw [look] at here
    split at here
    · rename_i new
      cases here
      have stale : desk.nodes.get? other = none ∧ other ≠ above := by
        rw [← new, set] at fresh
        split at fresh
        · cases fresh
        · exact ⟨fresh, ‹_›⟩
      rw [shaped.childCount_stale stale.1, leaf]
      simp [Payload.children, Ne.symm stale.2]
    · rw [set] at here
      split at here
      · rename_i upwards
        cases here
        rw [upwards, if_pos rfl, ← shaped.children above upper found]
        exact children
      · rename_i sideways
        rw [shaped.children other new here]
        simp [Ne.symm sideways]
  · change desk.created + 1 = desk.freed + (SlotTable.insert _ child).2.live
    rw [SlotTable.live_insert, SlotTable.live_set, shaped.counted]
    exact Nat.add_assoc _ _ _

/-- What goes counts as freed, and its parent counts one child too many then. -/
private theorem felled (shaped : desk.Shaped) (found : desk.nodes.get? id = some node)
    (childless : node.payload.children = 0) :
    (desk.without id (desk.nodes.erase id)).Framed ∧
      desk.created = desk.freed + 1 + (desk.nodes.erase id).live ∧
      ∀ other old, (desk.nodes.erase id).get? other = some old → old.payload.children =
        childCount (desk.nodes.erase id) other + if node.parent = some other then 1 else 0 := by
  refine ⟨shaped.framed.erase fun other lower below link => ?_, ?_, fun other old here => ?_⟩
  · have children := shaped.not_childless found below link
    omega
  · have live := SlotTable.live_pos shaped.sound found
    rw [SlotTable.live_erase found, shaped.counted]
    omega
  · rw [SlotTable.get?_erase] at here
    split at here
    · cases here
    · rw [childCount_erase found, shaped.children other old here]

/-- The last node of a tree goes. -/
theorem fellRoot (shaped : desk.Shaped) (found : desk.nodes.get? id = some node)
    (childless : node.payload.children = 0) (parent : node.parent = none) :
    (desk.without id (desk.nodes.erase id)).Shaped := by
  obtain ⟨framed, counted, children⟩ := shaped.felled found childless
  apply framed.shaped
  · intro other old here
    rw [children other old here, parent]
    simp
  · exact counted

/-- A node without children goes, and its parent counts one child less. -/
theorem fell (shaped : desk.Shaped) {above : NodeId} {upper : Node} {payload : Payload}
    (found : desk.nodes.get? id = some node) (childless : node.payload.children = 0)
    (parent : node.parent = some above) (foundUpper : (desk.nodes.erase id).get? above = some upper)
    (released : upper.payload.releaseChild above.index = .ok payload) :
    (desk.without id ((desk.nodes.erase id).set above { upper with payload := payload })).Shaped := by
  obtain ⟨_, kind, _, _, fewer, _⟩ := Payload.releaseChild_ok released
  obtain ⟨framed, counted, children⟩ := shaped.felled found childless
  have lowered : { desk.without id (desk.nodes.erase id) with
      nodes := (desk.nodes.erase id).set above { upper with payload := payload } }.Framed := by
    apply framed.set foundUpper { upper with payload := payload } rfl rfl
    intro inner
    rw [Node.kind, kind]
    exact inner
  have kept := childCount_set foundUpper
    (show ({ upper with payload := payload } : Node).parent = upper.parent from rfl)
  apply lowered.shaped
  · intro other new here
    change new.payload.children = childCount (SlotTable.set _ above _) other
    rw [kept]
    rw [SlotTable.get?_set foundUpper] at here
    split at here
    · rename_i upwards
      cases here
      have count := children above upper foundUpper
      rw [parent, if_pos rfl, fewer] at count
      rw [upwards]
      exact Nat.add_right_cancel count
    · rename_i sideways
      rw [children other new here, parent, if_neg, Nat.add_zero]
      simpa using Ne.symm sideways
  · change desk.created = desk.freed + 1 + (SlotTable.set _ above _).live
    rw [SlotTable.live_set]
    exact counted

theorem wipe (shaped : desk.Shaped) :
    { desk with
      nodes := desk.nodes.eraseAll desk.nodes.handles
      root := none
      focus := none
      freed := desk.freed + desk.nodes.handles.length }.Shaped := by
  have stale (other : NodeId) : (desk.nodes.eraseAll desk.nodes.handles).get? other = none :=
    SlotTable.get?_eraseAll_handles shaped.fits other
  refine ⟨shaped.sound.eraseAll _, ?_, ?_, ?_, ?_, ?_, ?_, ?_⟩
  · change (SlotTable.eraseAll _ _).slots.size ≤ _
    rw [SlotTable.size_eraseAll]
    exact shaped.fits
  · intro other node above here
    rw [stale] at here
    cases here
  · intro other node here
    rw [stale] at here
    cases here
  · intro other root
    cases root
  · intro other node here
    rw [stale] at here
    cases here
  · change desk.created = _ + (SlotTable.eraseAll _ _).live
    rw [SlotTable.live_eraseAll shaped.sound shaped.fits,
      SlotTable.length_handles shaped.sound]
    exact shaped.counted
  · intro other focus
    cases focus

end Desk.Shaped

theorem Move.shaped {deed : Deed} {desk desk' : Desk} (move : Move deed desk desk')
    (shaped : desk.Shaped) (fits : desk'.nodes.Fits) : desk'.Shaped := by
  cases move with
  | reload loaded => exact shaped.reload loaded
  | adjust => exact shaped.reload _
  | write found payload parent depth =>
    refine shaped.rewrite found parent depth (congrArg Payload.children payload) fun inner => ?_
    rwa [Node.kind, payload]
  | @record _ id node basis added row found leaf focus fresh =>
    have recorded : { desk with
        nodes := desk.nodes.set id { node with payload := .leaf basis (added ++ [row]) } }.Shaped := by
      refine shaped.rewrite found rfl rfl ?_ fun inner => ?_
      · rw [leaf]
        rfl
      · exact absurd (congrArg Payload.kind leaf) inner
    exact recorded.reload _
  | solve found leaf solved =>
    refine shaped.rewrite found rfl rfl ?_ fun inner => ?_
    · obtain rfl | ⟨_, rfl⟩ := solved <;> rw [leaf] <;> rfl
    · exact absurd (congrArg Payload.kind leaf) inner
  | flatten found fork focus =>
    refine shaped.rewrite found rfl rfl ?_ fun _ impossible => ?_
    · rw [fork]
      rfl
    · cases impossible
  | load replays =>
    obtain ⟨node, found⟩ := replays.live
    refine ⟨shaped.sound, shaped.fits, shaped.parent, shaped.top, shaped.root, shaped.children,
      shaped.counted, fun other focus => ?_⟩
    cases focus
    exact ⟨node, found⟩
  | plant bare leaf parent depth => exact shaped.plant bare leaf parent depth fits
  | sprout found captured leaf parent depth =>
    exact shaped.sprout found captured leaf parent depth fits
  | fellRoot found childless parent => exact shaped.fellRoot found childless parent
  | fell found childless parent foundUpper released =>
    exact shaped.fell found childless parent foundUpper released
  | wipe => exact shaped.wipe

namespace Moves

variable {may : Set Deed} {desk desk' : Desk}

theorem shaped (moves : Moves may desk desk') (shaped : desk.Shaped) (fits : desk'.nodes.Fits) :
    desk'.Shaped := by
  induction moves with
  | refl => exact shaped
  | tail earlier last ih =>
    obtain ⟨deed, _, move⟩ := last
    exact move.shaped (ih (Nat.le_trans move.slots_le fits)) fits

theorem slots_eq (moves : Moves may desk desk') (other : .sprout ∉ may) :
    desk'.nodes.slots.size = desk.nodes.slots.size := by
  induction moves with
  | refl => rfl
  | tail _ last ih =>
    obtain ⟨deed, allowed, move⟩ := last
    exact (move.slots_eq fun same => other (same ▸ allowed)).trans ih

/-- Without new nodes the numbers of the slots fit as before. -/
theorem shaped_of_shrinking (moves : Moves may desk desk') (other : .sprout ∉ may)
    (shaped : desk.Shaped) : desk'.Shaped :=
  moves.shaped shaped ((moves.slots_eq other).trans_le shaped.fits)

theorem sound (moves : Moves may desk desk') (sound : desk.nodes.Sound) : desk'.nodes.Sound := by
  induction moves with
  | refl => exact sound
  | tail _ last ih =>
    obtain ⟨deed, _, move⟩ := last
    exact move.sound ih

end Moves

end BranchCutPrice
