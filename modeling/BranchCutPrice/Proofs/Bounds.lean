import BranchCutPrice.Proofs.Orderly

/-!
Bounds only rise. In every tree that operations lead to, whatever happens to the relaxation in
between, bounds are defined and no child has a lower one than its parent; and as long as a node
stays its bound does not fall.
-/

namespace BranchCutPrice

open BranchCutPrice.Action BranchCutPrice.Tree World

namespace Tree

variable {tree tree' tree'' : Tree} {id : NodeId} {node : Node}

/-! ### Raising -/

theorem raiseBound_ensures {bound : Float} (found : tree.getLeaf id = .ok node)
    (defined : bound.isNaN = false) (defined' : node.bound.isNaN = false) :
    (raiseBound id bound).Ensures tree
      (fun most tree' => (most = node.bound ∨ most = bound) ∧ node.bound ≤ most ∧ bound ≤ most ∧
        tree'.node id = .ok { node with bound := most })
      (fun _ _ => False) := by
  obtain ⟨there, _⟩ := kind_of_getLeaf found
  unfold raiseBound
  rw [if_neg (by rw [defined]; exact Bool.false_ne_true)]
  change (Action.read _ >>= _).Ensures tree _ _
  rw [ensures_bind]
  apply ensures_read.2
  constructor
  · intro leaf same
    rw [found] at same
    cases same
    split
    · rename_i below
      exact ⟨.inl rfl, Double.le_refl defined', below, node_ok.2 there⟩
    · rename_i above
      rw [ensures_bind, ensures_modify, ensures_pure]
      refine ⟨.inr rfl, Double.le_of_lt (Double.lt_of_not_le defined defined' above),
        Double.le_refl defined, ?_⟩
      apply node_ok.2
      rw [requeue_nodes]
      exact (SlotTable.get?_set there _ id).trans (if_pos rfl)
  · intro e refused
    rw [found] at refused
    cases refused

/-- What holds of the bounds in a tree. -/
structure Bounded (tree : Tree) : Prop where
  defined : ∀ id node, tree.node id = .ok node → node.bound.isNaN = false
  /-- A node that is younger than the child is not its parent, even if it has the handle. -/
  inherited : ∀ id node above upper, tree.node id = .ok node → node.parent = some above →
    tree.node above = .ok upper → upper.seq < node.seq → upper.bound ≤ node.bound
  /-- A leaf gets the larger one of its bound and the new one. -/
  raised : ∀ id node bound, tree.getLeaf id = .ok node → bound.isNaN = false →
    ∃ most, (most = node.bound ∨ most = bound) ∧ node.bound ≤ most ∧ bound ≤ most ∧
      (raiseBound id bound tree).result = .ok most ∧
      (raiseBound id bound tree).state.node id = .ok { node with bound := most }

theorem Graded.bounded (graded : tree.Graded) : tree.Bounded where
  defined id node found := graded.defined id node (node_ok.1 found)
  inherited id node above upper found parent foundUpper older :=
    (graded.inherits id node above upper (node_ok.1 found) parent (node_ok.1 foundUpper) older).2
  raised id node bound found defined := by
    have defined' := graded.defined id node (kind_of_getLeaf found).1
    obtain ⟨most, ended, either, above, above', stored⟩ :=
      ensures_never (raiseBound_ensures found defined defined')
    exact ⟨most, either, above, above', ended, stored⟩

/-! ### Operations in any order -/

/-- One operation on a tree, refused or not, with whatever relaxation there is at the time. -/
def Works (tree tree' : Tree) : Prop :=
  ∃ (call : TreeCall) (lp : Relaxation),
    (call.perform ⟨tree, lp⟩).state.own = tree' ∧ tree'.nodes.Roomy

/-- Operations that leave a handle valid. -/
def Lasts (id : NodeId) : Tree → Tree → Prop :=
  Relation.ReflTransGen fun tree tree' => tree.Works tree' ∧ tree'.contains id = true

/-- What a handle names is the same node as before, with no lower bound. -/
def Rises (id : NodeId) (tree tree' : Tree) : Prop :=
  ∀ node later, tree.node id = .ok node → tree'.node id = .ok later →
    later.seq = node.seq ∧ node.bound ≤ later.bound

theorem Rises.rfl (graded : tree.Graded) : Rises id tree tree := by
  intro node later found found'
  rw [found] at found'
  cases found'
  exact ⟨Eq.refl _, Double.le_refl (graded.defined id node (node_ok.1 found))⟩

/-- If the node is there in between. -/
theorem Rises.trans (first : Rises id tree tree') (second : Rises id tree' tree'')
    (there : tree'.contains id = true) : Rises id tree tree'' := by
  intro node last found found'
  obtain ⟨later, between⟩ := SlotTable.contains_iff.1 there
  obtain ⟨seq, below⟩ := first node later found (node_ok.2 between)
  obtain ⟨seq', below'⟩ := second later last (node_ok.2 between) found'
  exact ⟨seq'.trans seq, Double.le_trans below below'⟩

theorem Edited.rises {may : Set Deed} {torn : Prop} (edited : Edited may torn tree tree')
    (oneWay : .fell ∉ may ∨ .sprout ∉ may) (graded : tree.Graded) (fits : tree'.nodes.Fits) :
    Rises id tree tree' := by
  intro node last found found'
  have found := node_ok.1 found
  have found' := node_ok.1 found'
  have same := edited.same oneWay graded fits found found'
  refine ⟨same, ?_⟩
  obtain new | ⟨before, there, _, _, below⟩ := (edited.later graded fits).2.nodes id last found'
  · have old := graded.seqs id node found
    omega
  · rw [found] at there
    cases there
    exact below

theorem Works.edited (works : tree.Works tree') :
    ∃ may : Set Deed, (.fell ∉ may ∨ .sprout ∉ may) ∧ Edited may True tree tree' ∧
      tree'.nodes.Fits := by
  obtain ⟨call, lp, rfl, roomy⟩ := works
  have edits := reaches_iff.1 (call.perform_edits (fun _ => trivial) ⟨tree, lp⟩)
  exact ⟨call.edits, call.edits_oneWay, edits, roomy.fits⟩

theorem Works.graded (works : tree.Works tree') (graded : tree.Graded) : tree'.Graded := by
  obtain ⟨_, _, edited, fits⟩ := works.edited
  exact (edited.later graded fits).1

theorem graded_of_works {settings : TreeSettings}
    (worked : Relation.ReflTransGen Works (.empty settings) tree) : tree.Graded := by
  induction worked with
  | refl => exact .empty settings
  | tail _ last ih => exact last.graded ih

theorem Lasts.rises (lasts : Lasts id tree tree') (graded : tree.Graded) :
    tree'.Graded ∧ Rises id tree tree' := by
  induction lasts with
  | refl => exact ⟨graded, .rfl graded⟩
  | tail earlier last ih =>
    obtain ⟨graded', rises⟩ := ih
    obtain ⟨works, there⟩ := last
    obtain ⟨_, oneWay, edited, fits⟩ := works.edited
    refine ⟨works.graded graded', ?_⟩
    -- the handle is valid before the last operation, or there was none before it
    obtain rfl | ⟨_, _, _, between⟩ := Relation.ReflTransGen.cases_tail earlier
    · exact edited.rises oneWay graded' fits
    · exact rises.trans (edited.rises oneWay graded' fits) between

end Tree

/-! ### Worlds -/

variable {ι : Type} [Fintype ι] [DecidableEq ι] [Inhabited ι] {rule : Rule ι} {w w' : World ι}

/-- Calls that leave a handle of the tree at a place valid. -/
def World.Lasts (rule : Rule ι) (q : ι) (id : NodeId) : World ι → World ι → Prop :=
  Relation.ReflTransGen fun w w' =>
    (∃ call, rule w call ∧ Step call w w') ∧ (w'.trees q).contains id = true

theorem Reachable.rises {q : ι} {id : NodeId} (reached : Reachable rule w)
    (lasts : World.Lasts rule q id w w') :
    Reachable rule w' ∧ Rises id (w.trees q) (w'.trees q) := by
  induction lasts with
  | refl => exact ⟨reached, .rfl (reached.orderly q).1.graded⟩
  | tail earlier last ih =>
    obtain ⟨⟨start, fresh, run⟩, rises⟩ := ih
    obtain ⟨⟨call, allowed, step⟩, there⟩ := last
    obtain ⟨_, kept, _⟩ := run.kept fresh.kept
    have graded := (Reachable.orderly ⟨start, fresh, run⟩ q).1.graded
    have once : Rises id _ _ :=
      (step.edited kept q).rises (call.edits_oneWay q) graded (step.roomy.nodes q).fits
    refine ⟨⟨start, fresh, run.tail ⟨call, allowed, step⟩⟩, ?_⟩
    obtain rfl | ⟨_, _, _, between⟩ := Relation.ReflTransGen.cases_tail earlier
    · exact once
    · exact rises.trans once between

/-- After any operations on a tree bounds are defined, no child has a lower one than its parent,
raising a bound gives the larger one, and while a node stays its bound does not fall. Where
clients release only what they hold, parents are there as long as they have children. -/
theorem bounds_monotone :
    (∀ settings tree, Relation.ReflTransGen Tree.Works (.empty settings) tree → tree.Bounded ∧
      ∀ id tree', Tree.Lasts id tree tree' → Rises id tree tree') ∧
    ∀ w, Reachable rule w → ∀ q, (w.trees q).Bounded ∧
      (∀ id node above, (w.trees q).node id = .ok node → node.parent = some above →
        ∃ upper, (w.trees q).node above = .ok upper ∧ upper.bound ≤ node.bound) ∧
      ∀ id w', World.Lasts rule q id w w' → Rises id (w.trees q) (w'.trees q) := by
  constructor
  · intro settings tree worked
    have graded := graded_of_works worked
    exact ⟨graded.bounded, fun id tree' lasts => (lasts.rises graded).2⟩
  · intro w reached q
    obtain ⟨orderly, rooted⟩ := reached.orderly q
    have bounded := orderly.graded.bounded
    refine ⟨bounded, ?_, fun id w' lasts => (reached.rises lasts).2⟩
    intro id node above found parent
    obtain ⟨upper, foundUpper, older⟩ := rooted id node above (node_ok.1 found) parent
    have foundUpper := node_ok.2 foundUpper
    exact ⟨upper, foundUpper, bounded.inherited id node above upper found parent foundUpper older⟩

/-- A tree with nothing but a root. -/
def Tree.sapling : Tree :=
  ((TreeCall.createRoot ⟨0, 0⟩).perform
    ⟨.empty {}, (World.initial.after [.client .snapshotBasis]).lp⟩).state.own

/-- The bound of a root is raised. -/
def raising : List (Call Unit) :=
  rooting ++ [.tree () (.raiseBound ⟨0, 0⟩ 3)]

theorem bounds_monotone_raised : Tree.sapling.Bounded ∧ ∃ node later : Node,
    ((World.initial.after rooting).trees ()).node ⟨0, 0⟩ = .ok node ∧
      ((World.initial.after raising).trees ()).node ⟨0, 0⟩ = .ok later ∧
        later.bound = 3 ∧ node.bound ≤ later.bound := by
  have plays : Plays (fun _ _ => True) World.initial rooting := by
    decide +kernel
  have step : Step (.tree () (.raiseBound ⟨0, 0⟩ 3)) (World.initial.after rooting)
      (World.initial.after raising) :=
    ⟨(World.after_concat _ _).symm, trivial, by decide +kernel⟩
  have lasts : World.Lasts (fun _ _ => True) () ⟨0, 0⟩ (World.initial.after rooting)
      (World.initial.after raising) :=
    .single ⟨⟨_, trivial, step⟩, by decide +kernel⟩
  have worked : Relation.ReflTransGen Tree.Works (.empty {}) Tree.sapling :=
    .single ⟨.createRoot ⟨0, 0⟩, _, rfl, by decide +kernel⟩
  obtain ⟨trees, worlds⟩ := @bounds_monotone Unit _ _ _ fun _ _ => True
  obtain ⟨_, _, rises⟩ := worlds _ plays.reachable ()
  refine ⟨(trees _ _ worked).1, _, _, rfl, rfl, by decide +kernel, ?_⟩
  exact (rises _ _ lasts _ _ rfl rfl).2

end BranchCutPrice
