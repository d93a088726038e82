import BranchCutPrice.Proofs.Runs
import BranchCutPrice.Proofs.Trails

/-!
Moving the focus to the letter. The rows that are loaded already are kept as far as they go, the
steps that are reported lead from one list to the other, and but for the active way the tree
stays as it is, so every node keeps its relaxation.
-/

namespace BranchCutPrice

open BranchCutPrice.Action Relaxation

variable {s : Linked Tree} {tree tree' tree'' : Tree} {id : NodeId} {wanted loaded : List RowId}

/-! ### Lists of rows -/

/-- What a step makes of the loaded rows. -/
def RowEdit.replay (rows : List RowId) : RowEdit → List RowId
  | .shrink length => rows.take length
  | .add row => rows ++ [row]

theorem RowEdit.replay_adds (rows added : List RowId) :
    (added.map RowEdit.add).foldl RowEdit.replay rows = rows ++ added := by
  induction added generalizing rows with
  | nil => exact (List.append_nil rows).symm
  | cons row rest ih =>
    rw [List.map_cons, List.foldl_cons, ih]
    exact List.append_assoc rows [row] rest

/-- The longest list that two lists begin with. -/
structure LongestPrefix (shared rows rows' : List RowId) : Prop where
  left : shared <+: rows
  right : shared <+: rows'
  longest : ∀ other, other <+: rows → other <+: rows' → other <+: shared

namespace Tree

theorem sharedLength_le (wanted loaded : List RowId) :
    sharedLength wanted loaded ≤ wanted.length := by
  induction wanted generalizing loaded with
  | nil => exact Nat.zero_le _
  | cons row rest ih =>
    cases loaded with
    | nil => exact Nat.zero_le _
    | cons row' loaded =>
      unfold sharedLength
      split
      · exact Nat.succ_le_succ (ih loaded)
      · exact Nat.zero_le _

theorem le_sharedLength {other : List RowId} (left : other <+: wanted) (right : other <+: loaded) :
    other.length ≤ sharedLength wanted loaded := by
  induction other generalizing wanted loaded with
  | nil => exact Nat.zero_le _
  | cons row rest ih =>
    obtain ⟨more, rfl⟩ := left
    obtain ⟨more', rfl⟩ := right
    rw [List.cons_append, List.cons_append, sharedLength, if_pos rfl]
    exact Nat.succ_le_succ (ih (List.prefix_append rest more) (List.prefix_append rest more'))

theorem length_take_sharedLength (wanted loaded : List RowId) :
    (wanted.take (sharedLength wanted loaded)).length = sharedLength wanted loaded :=
  List.length_take_of_le (sharedLength_le wanted loaded)

theorem longestPrefix_take (wanted loaded : List RowId) :
    LongestPrefix (wanted.take (sharedLength wanted loaded)) loaded wanted where
  left := by
    rw [← take_sharedLength]
    exact List.take_prefix _ _
  right := List.take_prefix _ _
  longest other left right := by
    apply List.prefix_of_prefix_length_le right (List.take_prefix _ _)
    rw [length_take_sharedLength]
    exact le_sharedLength right left

/-- The steps from one list of rows to another. -/
structure Path (edits : List RowEdit) (rows rows' : List RowId) : Prop where
  replayed : edits.foldl RowEdit.replay rows = rows'
  /-- What is in common at the beginning stays, and nothing else does. -/
  least : ∃ shared added, LongestPrefix shared rows rows' ∧ rows' = shared ++ added ∧
    edits = (if shared.length < rows.length then [.shrink shared.length] else []) ++
      added.map .add

theorem path_of_sharedLength (wanted loaded : List RowId) :
    Path ((if sharedLength wanted loaded < loaded.length then
        [RowEdit.shrink (sharedLength wanted loaded)] else []) ++
      (wanted.drop (sharedLength wanted loaded)).map RowEdit.add) loaded wanted := by
  have kept := take_sharedLength wanted loaded
  have length := length_take_sharedLength wanted loaded
  have longest := longestPrefix_take wanted loaded
  generalize sharedLength wanted loaded = shared at kept length longest ⊢
  constructor
  · rw [List.foldl_append, RowEdit.replay_adds]
    split
    · rw [List.foldl_cons, List.foldl_nil, RowEdit.replay, kept, List.take_append_drop]
    · rename_i whole
      rw [List.foldl_nil, ← List.take_of_length_le (Nat.le_of_not_lt whole), kept,
        List.take_append_drop]
  · refine ⟨_, _, longest, (List.take_append_drop _ _).symm, ?_⟩
    rw [length]

end Tree

/-! ### The loaded rows -/

namespace Relaxation

/-- A relaxation but for its rows. -/
def rowless (lp : Relaxation) : Relaxation :=
  { lp with rows := .empty, rowPositions := ∅, loadedRows := [] }

/-- Only rows differ, loaded or not. -/
def SameRowless (lp lp' : Relaxation) : Prop :=
  lp'.rowless = lp.rowless

instance : Std.Refl SameRowless where
  refl _ := rfl

instance : IsTrans Relaxation SameRowless where
  trans _ _ _ first second := Eq.trans second first

theorem SameRowless.eq {lp lp' : Relaxation} (same : SameRowless lp lp') : lp' = { lp with
    rows := lp'.rows
    rowPositions := lp'.rowPositions
    loadedRows := lp'.loadedRows } := by
  unfold SameRowless rowless at same
  simp only [Relaxation.mk.injEq] at same
  cases lp
  cases lp'
  simp only [Relaxation.mk.injEq]
  tauto

theorem captureRow_rowless (row : RowId) : (captureRow row).Respects SameRowless :=
  respects_change fun _ _ changed => related_of_bind changed fun _ => rfl

theorem releaseRow_rowless (row : RowId) : (releaseRow row).Respects SameRowless :=
  respects_change fun _ _ changed => related_of_bind changed fun _ => rfl

theorem unloadLast_rowless (row : RowId) : (unloadLast row).Respects SameRowless :=
  Respects.bind (respects_modify (R := SameRowless) fun _ => rfl) fun _ => releaseRow_rowless row

theorem shrinkRows_rowless (length : Nat) : (shrinkRows length).Respects SameRowless :=
  respects_get.bind fun _ => Respects.forM unloadLast_rowless _

theorem loadRow_rowless (row : RowId) : (loadRow row).Respects SameRowless := by
  apply respects_change
  intro lp lp' changed
  split at changed
  · cases changed
  · exact related_of_bind changed fun _ => rfl

theorem loadRow_rows (lp : Relaxation) (row : RowId) :
    (loadRow row).Yields lp fun _ lp' => lp'.loadedRows = lp.loadedRows ++ [row] := by
  apply yields_change.2
  intro lp' changed
  split at changed
  · cases changed
  · exact related_of_bind (R := fun lp lp' : Relaxation => lp'.loadedRows = lp.loadedRows ++ [row])
      changed fun _ => rfl

end Relaxation

namespace Tree

theorem reload_rowless (wanted : List RowId) : (reload wanted).Respects SameRowless :=
  respects_get.bind fun _ => (shrinkRows_rowless _).bind fun _ =>
    (Respects.forM loadRow_rowless _).bind fun _ => respects_pure _

theorem reload_path (lp : Relaxation) (wanted : List RowId) :
    (reload wanted).Yields lp fun edits lp' =>
      lp'.loadedRows = wanted ∧ Path edits lp.loadedRows wanted := by
  unfold reload
  rw [Yields, ensures_bind, ensures_get, ensures_bind]
  dsimp only
  apply (shrinkRows_rows lp _).yields
  intro _ lp' shrunk
  rw [ensures_bind]
  -- what is loaded and what is missing make up the rows wanted
  let before (missing : List RowId) (lp'' : Relaxation) : Prop :=
    lp''.loadedRows ++ missing = wanted
  have start : before (wanted.drop (sharedLength wanted lp.loadedRows)) lp' := by
    change lp'.loadedRows ++ _ = _
    rw [shrunk, take_sharedLength, List.take_append_drop]
  have step (row : RowId) (rest : List RowId) (lp' : Relaxation)
      (reached : before (row :: rest) lp') : (loadRow row).Yields lp' fun _ => before rest := by
    apply (loadRow_rows lp' row).yields
    intro _ lp'' loaded
    change lp''.loadedRows ++ rest = wanted
    rw [loaded, List.append_assoc]
    exact reached
  apply (ensures_forM before step _ start).yields
  intro _ lp'' done
  exact ⟨(List.append_nil _).symm.trans done, path_of_sharedLength wanted lp.loadedRows⟩

end Tree

/-! ### The active way -/

/-- Two results that a function does not tell apart. -/
theorem alike_of_map {α β : Type} {f : α → β} {result result' : Except Error α}
    (same : result'.map f = result.map f) :
    (∃ e, result' = .error e ∧ result = .error e) ∨
      ∃ a' a, result' = .ok a' ∧ result = .ok a ∧ f a' = f a := by
  cases result' with
  | error e' =>
    cases result with
    | error e =>
      cases same
      exact .inl ⟨_, rfl, rfl⟩
    | ok a => cases same
  | ok a' =>
    cases result with
    | error e => cases same
    | ok a => exact .inr ⟨a', a, rfl, rfl, Except.ok.inj same⟩

/-- A node but for its mark. -/
def Node.unmarked (node : Node) : Node :=
  { node with active := false }

namespace Tree

/-- Two trees are the same but for the focus and the way there. -/
structure Remarked (tree tree' : Tree) : Prop where
  slots : tree'.nodes.slots.size = tree.nodes.slots.size
  nodes : ∀ id, (tree'.nodes.get? id).map Node.unmarked = (tree.nodes.get? id).map Node.unmarked
  root : tree'.root = tree.root
  queue : tree'.queue = tree.queue
  nextSeq : tree'.nextSeq = tree.nextSeq
  settings : tree'.settings = tree.settings
  stats : tree'.stats = tree.stats

namespace Remarked

theorem rfl : Remarked tree tree :=
  ⟨Eq.refl _, fun _ => Eq.refl _, Eq.refl _, Eq.refl _, Eq.refl _, Eq.refl _, Eq.refl _⟩

theorem trans (first : Remarked tree tree') (second : Remarked tree' tree'') :
    Remarked tree tree'' where
  slots := second.slots.trans first.slots
  nodes id := (second.nodes id).trans (first.nodes id)
  root := second.root.trans first.root
  queue := second.queue.trans first.queue
  nextSeq := second.nextSeq.trans first.nextSeq
  settings := second.settings.trans first.settings
  stats := second.stats.trans first.stats

theorem mark (active : Bool) (tree : Tree) (id : NodeId) :
    Remarked tree (tree.mark active id) := by
  unfold Tree.mark
  cases found : tree.nodes.get? id with
  | none => exact .rfl
  | some node =>
    refine ⟨SlotTable.size_set _ _ _, fun other => ?_, Eq.refl _, Eq.refl _, Eq.refl _, Eq.refl _,
      Eq.refl _⟩
    have look := SlotTable.get?_set found { node with active := active } other
    change ((tree.nodes.set id { node with active := active }).get? other).map _ = _
    rw [look]
    split
    · rename_i same
      rw [same, found]
      rfl
    · rfl

theorem marks (active : Bool) (tree : Tree) (path : List NodeId) :
    Remarked tree (path.foldl (Tree.mark active) tree) := by
  induction path generalizing tree with
  | nil => exact .rfl
  | cons id rest ih => exact (mark active tree id).trans (ih _)

theorem turned (tree : Tree) (id : NodeId) (path : List NodeId) :
    Remarked tree (tree.turned id path) := by
  obtain ⟨slots, nodes, root, queue, nextSeq, settings, stats⟩ :=
    (marks false tree tree.activePath).trans (marks true _ path)
  exact ⟨slots, nodes, root, queue, nextSeq, settings, stats⟩

theorem node (remarked : Remarked tree tree') (id : NodeId) :
    (tree'.node id).map Node.unmarked = (tree.node id).map Node.unmarked := by
  have same := remarked.nodes id
  unfold Tree.node
  cases before : tree.nodes.get? id with
  | none =>
    rw [before] at same
    rw [Option.map_eq_none_iff.1 same]
  | some node =>
    rw [before] at same
    obtain ⟨node', after, unmarked⟩ := Option.map_eq_some_iff.1 same
    rw [after]
    exact congrArg Except.ok unmarked

/-- Walks pass the same payloads. -/
theorem ascend (remarked : Remarked tree tree') (steps : Nat) (id : NodeId) :
    (tree'.ascend (·.payload.isSubroot) steps id).map (·.map (·.2.payload)) =
      (tree.ascend (·.payload.isSubroot) steps id).map (·.map (·.2.payload)) := by
  induction steps generalizing id with
  | zero => exact Eq.refl _
  | succ steps ih =>
    unfold Tree.ascend
    obtain ⟨e, after, before⟩ | ⟨node', node, after, before, same⟩ :=
      alike_of_map (remarked.node id)
    · rw [after, before]
      exact Eq.refl _
    · obtain ⟨payload, parent, _⟩ := Node.mk.inj same
      rw [after, before]
      simp only [bind, Except.bind, pure, Except.pure, parent, payload]
      split
      · simp only [Except.map, List.map_cons, List.map_nil, payload]
      · rename_i above _
        split
        · simp only [Except.map, List.map_cons, List.map_nil, payload]
        · obtain ⟨e, after, before⟩ | ⟨path', path, after, before, upper⟩ := alike_of_map (ih above)
          · rw [after, before]
          · rw [after, before]
            simp only [Except.map, List.map_cons, payload, upper]

theorem lpRows (remarked : Remarked tree tree') (id : NodeId) :
    tree'.lpRows id = tree.lpRows id := by
  have rows (path : List (NodeId × Node)) :
      (path.map Prod.snd).reverse.flatMap (·.payload.rows) =
        (path.map (·.2.payload)).reverse.flatMap Payload.rows := by
    rw [← List.map_reverse, ← List.map_reverse, List.flatMap_map, List.flatMap_map]
  unfold Tree.lpRows Tree.lineage
  rw [remarked.slots]
  obtain ⟨e, after, before⟩ | ⟨path', path, after, before, same⟩ :=
    alike_of_map (remarked.ascend tree.nodes.slots.size id)
  · rw [after, before]
  · rw [after, before]
    simp only [bind, Except.bind, pure, Except.pure, rows, same]

end Remarked

/-! ### Switching -/

/-- What a switch of the focus does. -/
structure Switched (s : Linked Tree) (id : NodeId) (edits : List RowEdit) (s' : Linked Tree) :
    Prop where
  listed : s.own.lpRows id = .ok s'.lp.loadedRows
  path : Path edits s.lp.loadedRows s'.lp.loadedRows
  /-- A leaf has a warm start, and other nodes go on with the basis there is. -/
  start : ∃ node, s.own.nodes.get? id = some node ∧
    (∀ basis added, node.payload = .leaf basis added → s.lp.bases.get basis = .ok s'.lp.basis) ∧
      (node.kind ≠ .leaf → s'.lp.basis = s.lp.basis)
  lp : s'.lp.rowless = { s.lp.rowless with basis := s'.lp.basis }
  focus : s'.own.focus = some id
  way : s.own.pathTo id = .ok s'.own.activePath
  tree : Remarked s.own s'.own
  relaxations : ∀ other, s'.own.lpRows other = s.own.lpRows other

/-- A leaf has a warm start, and other nodes have none. -/
theorem start_of_warmStart {start : Option Basis} (warm : warmStart s id = .ok start) :
    ∃ node, s.own.nodes.get? id = some node ∧
      (∀ basis added, node.payload = .leaf basis added →
        ∃ value, start = some value ∧ s.lp.bases.get basis = .ok value) ∧
      (node.kind ≠ .leaf → start = none) := by
  unfold warmStart at warm
  cases found : s.own.node id with
  | error e => simp [found, bind, Except.bind] at warm
  | ok node =>
    simp only [found, bind, Except.bind] at warm
    refine ⟨node, node_ok.1 found, ?_, ?_⟩
    · intro basis added leaf
      rw [leaf] at warm
      cases got : s.lp.bases.get basis with
      | error e => simp [Payload.basis?, got] at warm
      | ok value =>
        simp only [Payload.basis?, got, pure, Except.pure] at warm
        cases warm
        exact ⟨value, rfl, rfl⟩
    · intro inner
      have cold : node.payload.basis? = none := by
        unfold Node.kind at inner
        cases payload : node.payload with
        | leaf => simp [payload, Payload.kind] at inner
        | fork | subroot => rfl
      rw [cold] at warm
      cases warm
      rfl

theorem warmed_rowless {lp lp' : Relaxation} (same : SameRowless lp lp') (start : Option Basis) :
    (warmed lp' start).rowless = { lp.rowless with basis := (warmed lp' start).basis } := by
  rw [← show lp'.rowless = lp.rowless from same]
  cases start <;> rfl

/-- A switch of the focus loads the rows of the new one, keeps what it can, and changes nothing
else. -/
theorem focusOn_switches {edits : List RowEdit} (done : (focusOn id s).result = .ok edits) :
    Switched s id edits (focusOn id s).state := by
  have switches : (focusOn id).Yields s (Switched s id) := by
    apply ensures_focusOn
    · exact fun _ _ => trivial
    · exact fun _ _ _ _ => trivial
    · intro wanted start listed warm
      apply ((reload_path s.lp wanted).and (reload_rowless wanted s.lp)).imp
      · rintro edits lp' ⟨⟨rows, path⟩, same⟩
        refine ⟨fun way walked => ?_, fun _ _ => trivial⟩
        have rows' : (warmed lp' start).loadedRows = wanted := (loadedRows_warmed _ _).trans rows
        have remarked := Remarked.turned s.own id way
        obtain ⟨node, found, leaf, inner⟩ := start_of_warmStart warm
        refine ⟨listed.trans (congrArg _ rows'.symm), rows'.symm ▸ path, ⟨node, found, ?_, ?_⟩,
          warmed_rowless same start, rfl, walked, remarked, remarked.lpRows⟩
        · intro basis added payload
          obtain ⟨value, rfl, got⟩ := leaf basis added payload
          exact got
        · intro kind
          rw [inner kind]
          have basis := congrArg Relaxation.basis (show lp'.rowless = s.lp.rowless from same)
          exact basis
      · exact fun _ _ _ => trivial
  exact ensures_of_ok done switches

/-- Two leaves with a row each, the second of which is the focus. -/
def siblings : Linked Tree :=
  (World.treeAt ()).get (World.initial.after (rooting ++ branching ++
    [.client (.createRow ⟨"left", ⟨1, []⟩, 0, 1, false⟩),
      .client (.createRow ⟨"right", ⟨1, []⟩, 0, 1, false⟩),
      .tree () (.focusOn ⟨1, 0⟩), .tree () (.addRow ⟨1, 0⟩ ⟨1, 0⟩),
      .tree () (.focusOn ⟨2, 0⟩), .tree () (.addRow ⟨2, 0⟩ ⟨2, 0⟩)]))

theorem focusOn_switches_back :
    (focusOn ⟨1, 0⟩ siblings).result = .ok [.shrink 1, .add ⟨1, 0⟩] ∧
      Switched siblings ⟨1, 0⟩ [.shrink 1, .add ⟨1, 0⟩] (focusOn ⟨1, 0⟩ siblings).state := by
  have done : (focusOn ⟨1, 0⟩ siblings).result = .ok [.shrink 1, .add ⟨1, 0⟩] := by
    decide +kernel
  exact ⟨done, focusOn_switches done⟩

/-! ### Refusals -/

/-- No row comes twice among the rows of a node. -/
def Loadable (tree : Tree) (id : NodeId) : Prop :=
  ∃ rows, tree.lpRows id = .ok rows ∧ rows.Nodup

/-- What a refused switch of the focus does. The rows wanted stay loaded up to the first one that
comes a second time. -/
structure Unswitched (s : Linked Tree) (id : NodeId) (s' : Linked Tree) : Prop where
  own : s'.own = s.own
  lp : s'.lp.rowless = s.lp.rowless
  users : ∀ row, s'.lp.rows.users row + s.lp.loadedRows.count row =
    s.lp.rows.users row + s'.lp.loadedRows.count row
  rows : s.own.contains id = false ∧ s' = s ∨
    ∃ rows, s.own.lpRows id = .ok rows ∧ Repeats s'.lp.loadedRows rows ∧ s'.lp.loadedRows.Nodup

namespace Unswitched

theorem of_stale (stale : s.own.contains id = false) : Unswitched s id s :=
  ⟨rfl, rfl, fun _ => rfl, .inl ⟨stale, rfl⟩⟩

theorem not_loadable {s' : Linked Tree} (unswitched : Unswitched s id s') :
    ¬s.own.Loadable id := by
  rintro ⟨rows, listed, distinct⟩
  obtain ⟨stale, _⟩ | ⟨rows', listed', repeats, _⟩ := unswitched.rows
  · obtain ⟨node, found⟩ := (replays_of_lpRows listed).live
    have live : s.own.contains id = true := SlotTable.contains_iff.2 ⟨node, found⟩
    rw [stale] at live
    cases live
  · rw [listed] at listed'
    cases listed'
    exact repeats.not_nodup distinct

end Unswitched

/-- The focus moves to a node whose rows are distinct, and to no other one. -/
theorem focusOn_loadable {owed : Holdings} (settled : Settled s owed) (shaped : s.desk.Shaped)
    (id : NodeId) :
    (focusOn id).Ensures s (fun _ _ => s.own.Loadable id) (fun _ s' => Unswitched s id s') := by
  apply ensures_focusOn_held settled shaped
  · exact fun gone _ => .of_stale gone
  · intro wanted start listed held
    have balanced : s.lp.Balanced (owed + Holder.holdings s.own) := settled
    apply ((reload_ensures balanced held).and (reload_rowless wanted s.lp)).imp
    · rintro edits lp' ⟨⟨balanced', rows⟩, _⟩ _ _
      exact ⟨wanted, listed, rows ▸ balanced'.positions.nodup⟩
    · rintro e lp' ⟨⟨balanced', repeats⟩, same⟩
      refine ⟨rfl, same, fun row => ?_,
        .inr ⟨wanted, listed, repeats, balanced'.positions.nodup⟩⟩
      simpa using balanced.users_rows balanced' (Eq.refl (_ + 0)) row

end Tree

variable {ι : Type} [Fintype ι] [DecidableEq ι] [Inhabited ι] {rule : Rule ι} {w : World ι}

/-- The focus cannot move to a node that is gone, or that has a row twice. In the first case
nothing changes, in the second one the rows that are loaded do. -/
theorem focus_refused (reached : Reachable rule w) (p : ι) (id : NodeId) :
    ((∃ e, (Tree.focusOn id ⟨w.trees p, w.lp⟩).result = .error e) ↔ ¬(w.trees p).Loadable id) ∧
      ∀ e, (Tree.focusOn id ⟨w.trees p, w.lp⟩).result = .error e →
        Tree.Unswitched ⟨w.trees p, w.lp⟩ id (Tree.focusOn id ⟨w.trees p, w.lp⟩).state := by
  obtain ⟨_, settled, shaped⟩ := reached.linked p
  have ensured := Tree.focusOn_loadable settled shaped id
  have refusal (e : Error) (refused : (Tree.focusOn id ⟨w.trees p, w.lp⟩).result = .error e) :
      Tree.Unswitched ⟨w.trees p, w.lp⟩ id (Tree.focusOn id ⟨w.trees p, w.lp⟩).state :=
    ensures_of_error refused ensured
  refine ⟨⟨fun ⟨e, refused⟩ => (refusal e refused).not_loadable, fun unloadable => ?_⟩, refusal⟩
  cases ended : (Tree.focusOn id ⟨w.trees p, w.lp⟩).result with
  | ok edits => exact absurd (ensures_of_ok ended ensured) unloadable
  | error e => exact ⟨e, rfl⟩

/-- A leaf records a row twice because the client unloads it in between. -/
def straying : List (Call Unit) :=
  [.client (.createRow ⟨"cut", ⟨1, []⟩, 0, 1, false⟩), .client .snapshotBasis,
    .tree () (.createRoot ⟨0, 0⟩), .tree () (.focusOn ⟨0, 0⟩)] ++ branching ++
  [.tree () (.focusOn ⟨1, 0⟩), .tree () (.addRow ⟨1, 0⟩ ⟨0, 0⟩), .client (.unloadRow ⟨0, 0⟩),
    .tree () (.addRow ⟨1, 0⟩ ⟨0, 0⟩), .tree () (.focusOn ⟨2, 0⟩)]

def World.strayed : World Unit :=
  World.initial.after straying

theorem World.strayed_reachable : Reachable (fun _ _ => True) World.strayed := by
  have plays : Plays (fun _ _ => True) World.initial straying := by
    decide +kernel
  exact plays.reachable

theorem focus_refused_strayed :
    Reachable (fun _ _ => True) World.strayed ∧
      Tree.Unswitched ⟨World.strayed.trees (), World.strayed.lp⟩ ⟨1, 0⟩
        (Tree.focusOn ⟨1, 0⟩ ⟨World.strayed.trees (), World.strayed.lp⟩).state := by
  have refused : (Tree.focusOn ⟨1, 0⟩ ⟨World.strayed.trees (), World.strayed.lp⟩).result =
      .error (.invalid (.alreadyLoaded .row ⟨0, 0⟩)) := by
    decide +kernel
  have reached := World.strayed_reachable
  exact ⟨reached, (focus_refused reached () ⟨1, 0⟩).2 _ refused⟩

/-- The focus stays at a leaf without rows, but there is a row loaded. -/
theorem focus_strays :
    Reachable (fun _ _ => True) World.strayed ∧
      (Tree.focusOn ⟨1, 0⟩ ⟨World.strayed.trees (), World.strayed.lp⟩).result =
        .error (.invalid (.alreadyLoaded .row ⟨0, 0⟩)) ∧
      World.strayed.lp.loadedRows = [] ∧
      (Tree.focusOn ⟨1, 0⟩ ⟨World.strayed.trees (), World.strayed.lp⟩).state.lp.loadedRows =
        [⟨0, 0⟩] ∧
      (Tree.focusOn ⟨1, 0⟩ ⟨World.strayed.trees (), World.strayed.lp⟩).state.own.focus =
        some ⟨2, 0⟩ ∧
      (Tree.focusOn ⟨1, 0⟩ ⟨World.strayed.trees (), World.strayed.lp⟩).state.own.lpRows ⟨2, 0⟩ =
        .ok [] :=
  ⟨World.strayed_reachable, by decide +kernel, by decide +kernel, by decide +kernel,
    by decide +kernel, by decide +kernel⟩

end BranchCutPrice
