import BranchCutPrice.Proofs.Coherence
import BranchCutPrice.Proofs.Content
import BranchCutPrice.Tree.Focus

/-!
Moving the focus. In a shaped and settled state a node of the tree can be made the focus
unless its relaxation has a row twice; then its rows are the loaded ones.
-/

namespace BranchCutPrice.Tree

open BranchCutPrice.Action Relaxation

theorem take_sharedLength (wanted loaded : List RowId) :
    loaded.take (sharedLength wanted loaded) = wanted.take (sharedLength wanted loaded) := by
  induction wanted generalizing loaded with
  | nil => simp [sharedLength]
  | cons row rest ih =>
    cases loaded with
    | nil => simp [sharedLength]
    | cons other loaded =>
      unfold sharedLength
      by_cases same : row = other
      · rw [if_pos same, List.take_succ_cons, List.take_succ_cons, ih, same]
      · rw [if_neg same]
        rfl

/-- The rows wanted are loaded up to one that is loaded already. -/
def Repeats (loaded wanted : List RowId) : Prop :=
  ∃ row rest, loaded ++ row :: rest = wanted ∧ row ∈ loaded

theorem Repeats.not_nodup {loaded wanted : List RowId} (repeats : Repeats loaded wanted) :
    ¬wanted.Nodup := by
  obtain ⟨row, rest, rfl, member⟩ := repeats
  intro distinct
  rw [List.nodup_append] at distinct
  exact distinct.2.2 row member row List.mem_cons_self rfl

/-- Held rows can be loaded in place of others unless one of them is wanted twice. -/
theorem reload_ensures {lp : Relaxation} {owed : Holdings} (balanced : lp.Balanced owed)
    {wanted : List RowId} (held : ∀ row ∈ wanted, row ∈ owed.rows) :
    (reload wanted).Ensures lp
      (fun _ lp' => lp'.Balanced owed ∧ lp'.loadedRows = wanted)
      (fun _ lp' => lp'.Balanced owed ∧ Repeats lp'.loadedRows wanted) := by
  unfold reload
  rw [ensures_bind, ensures_get]
  have kept := take_sharedLength wanted lp.loadedRows
  dsimp only
  generalize sharedLength wanted lp.loadedRows = length at kept ⊢
  rw [ensures_bind]
  apply (shrinkRows_ensures balanced length).imp
  · intro _ lp' shrunk
    rw [ensures_bind]
    -- what is loaded and what is missing make up the rows wanted
    let before (missing : List RowId) (lp'' : Relaxation) : Prop :=
      lp''.Balanced owed ∧ lp''.loadedRows ++ missing = wanted
    have start : before (wanted.drop length) lp' := by
      refine ⟨shrunk.1, ?_⟩
      rw [shrunk.2.1, kept, List.take_append_drop]
    have step (row : RowId) (rest : List RowId) (lp'' : Relaxation)
        (reached : before (row :: rest) lp'') :
        (loadRow row).Ensures lp'' (fun _ => before rest)
          (fun _ lp'' => lp''.Balanced owed ∧ Repeats lp''.loadedRows wanted) := by
      obtain ⟨balanced', whole⟩ := reached
      have member : row ∈ owed.rows := by
        apply held
        rw [← whole]
        simp
      by_cases twice : row ∈ lp''.loadedRows
      · apply (loadRow_ensures balanced' row).imp
        · intro _ _ loaded
          exact absurd twice loaded.2.2.2
        · intro _ _ refused
          rw [refused.1]
          exact ⟨balanced', row, rest, whole, twice⟩
      · apply (loadRow_held balanced' member twice).imp
        · intro _ _ loaded
          refine ⟨loaded.1, ?_⟩
          rw [loaded.2.1, List.append_assoc]
          exact whole
        · intro _ _ no
          exact no.elim
    apply (ensures_forM before step _ start).imp
    · intro _ lp'' done
      refine ⟨done.1, ?_⟩
      have loaded := done.2
      rwa [List.append_nil] at loaded
    · intro _ _ refused
      exact refused
  · intro _ _ no
    exact no.elim

/-! ### The active way -/

variable {tree : Tree} {id : NodeId} {node : Node}

theorem mark_touched (active : Bool) (tree : Tree) (id : NodeId) :
    Touched tree (mark active tree id) := by
  unfold mark
  cases found : tree.nodes.get? id with
  | none => exact .rfl
  | some node => exact .write found rfl rfl rfl

theorem marks_touched (active : Bool) (tree : Tree) (path : List NodeId) :
    Touched tree (path.foldl (mark active) tree) := by
  induction path generalizing tree with
  | nil => exact .rfl
  | cons id rest ih => exact (mark_touched active tree id).trans (ih _)

theorem ensures_activate {done : Unit → Tree → Prop} {refused : Error → Tree → Prop}
    (walks : ∀ path, tree.pathTo id = .ok path →
      done () { path.foldl (mark true) (tree.activePath.foldl (mark false) tree) with
        activePath := path })
    (lost : ∀ e, tree.pathTo id = .error e → refused e tree) :
    (activate id).Ensures tree done refused := by
  apply ensures_change.2
  cases walked : tree.pathTo id with
  | error e =>
    refine ⟨fun tree' changed => ?_, fun e' refusal => ?_⟩
    · cases changed
    · cases refusal
      exact lost e walked
  | ok path =>
    refine ⟨fun tree' changed => ?_, fun e refusal => ?_⟩
    · cases changed
      exact walks path walked
    · cases refusal

/-! ### The focus -/

/-- A node that is there has its warm start. -/
theorem warmStart_live {s : Linked Tree} {owed : Holdings} (settled : Settled s owed)
    (found : s.own.nodes.get? id = some node) : ∃ basis, warmStart s id = .ok basis := by
  unfold warmStart
  simp only [node_ok.2 found, bind, Except.bind, pure, Except.pure]
  cases warm : node.payload.basis? with
  | none => exact ⟨none, rfl⟩
  | some basis =>
    have balanced : s.lp.Balanced (owed + nodeHoldings s.own.nodes) := settled
    have held : basis ∈ (owed + nodeHoldings s.own.nodes).bases := by
      rw [Holdings.bases_add]
      exact Multiset.mem_add.2 (.inr (mem_nodeHoldings_bases found warm))
    obtain ⟨object, foundObject⟩ := balanced.bases.found held
    refine ⟨some object.value, ?_⟩
    simp [Registry.get, Registry.shared, foundObject, bind, Except.bind, pure, Except.pure]

/-- A relaxation after a warm start, if there is one. -/
def warmed (lp : Relaxation) : Option Basis → Relaxation
  | none => lp
  | some basis => { lp with basis := basis }

@[simp]
theorem loadedRows_warmed (lp : Relaxation) (start : Option Basis) :
    (warmed lp start).loadedRows = lp.loadedRows := by
  cases start <;> rfl

theorem warmed_balanced {lp : Relaxation} {owed : Holdings} (balanced : lp.Balanced owed)
    (start : Option Basis) : (warmed lp start).Balanced owed := by
  cases start with
  | none => exact balanced
  | some basis =>
    exact ⟨balanced.rows, balanced.columns, balanced.bases, balanced.positions, balanced.members,
      balanced.distinct⟩

theorem ensures_warm {s : Linked Tree} {start : Option Basis} {done : Unit → Linked Tree → Prop}
    {refused : Error → Linked Tree → Prop} :
    (start.toList.forM fun basis => onLp (setBasis basis)).Ensures s done refused ↔
      done () ⟨s.own, warmed s.lp start⟩ := by
  cases start <;> exact Iff.rfl

/-- Rows and warm start of a node are looked up before anything changes. Then the rows are
loaded, and the node becomes the focus. -/
theorem ensures_focusOn {s : Linked Tree} {done : List RowEdit → Linked Tree → Prop}
    {refused : Error → Linked Tree → Prop}
    (unlisted : ∀ e, s.own.lpRows id = .error e → refused e s)
    (cold : ∀ wanted e, s.own.lpRows id = .ok wanted → warmStart s id = .error e → refused e s)
    (loads : ∀ wanted start, s.own.lpRows id = .ok wanted → warmStart s id = .ok start →
      (reload wanted).Ensures s.lp
        (fun edits lp' =>
          (∀ path, s.own.pathTo id = .ok path →
            done edits ⟨{ path.foldl (mark true) (s.own.activePath.foldl (mark false) s.own) with
              activePath := path, focus := some id }, warmed lp' start⟩) ∧
          ∀ e, s.own.pathTo id = .error e → refused e ⟨s.own, warmed lp' start⟩)
        (fun e lp' => refused e ⟨s.own, lp'⟩)) :
    (focusOn id).Ensures s done refused := by
  unfold focusOn
  rw [ensures_bind]
  apply ensures_read.2
  refine ⟨fun wanted listed => ?_, unlisted⟩
  rw [ensures_bind]
  apply ensures_read.2
  refine ⟨fun start warm => ?_, fun e => cold wanted e listed⟩
  rw [ensures_bind, ensures_get, ensures_bind, ensures_onLp]
  apply (loads wanted start listed warm).imp
  · rintro edits lp' ⟨turns, lost⟩
    rw [ensures_bind, ensures_warm, ensures_bind, ensures_onOwn]
    apply ensures_activate
    · intro path walked
      rw [ensures_bind, ensures_onOwn, ensures_modify, ensures_bind, ensures_emit, ensures_pure]
      exact turns path walked
    · exact lost
  · intro _ _ refused
    exact refused

/-- In a shaped and settled state only a node that is gone is refused before its rows are loaded,
which are all held. -/
theorem ensures_focusOn_held {s : Linked Tree} {owed : Holdings} (settled : Settled s owed)
    (shaped : s.desk.Shaped) {done : List RowEdit → Linked Tree → Prop}
    {refused : Error → Linked Tree → Prop}
    (stale : s.own.contains id = false → ∀ e, refused e s)
    (loads : ∀ wanted start, s.own.lpRows id = .ok wanted →
      (∀ row ∈ wanted, row ∈ (owed + Holder.holdings s.own).rows) →
      (reload wanted).Ensures s.lp
        (fun edits lp' => ∀ path, s.own.pathTo id = .ok path →
          done edits ⟨{ path.foldl (mark true) (s.own.activePath.foldl (mark false) s.own) with
            activePath := path, focus := some id }, warmed lp' start⟩)
        (fun e lp' => refused e ⟨s.own, lp'⟩)) :
    (focusOn id).Ensures s done refused := by
  have shaped' : (s.own.desk s.lp.loadedRows).Shaped := shaped
  apply ensures_focusOn
  · intro e unlisted
    cases live : s.own.contains id with
    | false => exact stale live e
    | true =>
      obtain ⟨node, found⟩ := SlotTable.contains_iff.1 live
      obtain ⟨rows, listed, _⟩ := lpRows_live shaped' found
      rw [listed] at unlisted
      cases unlisted
  · intro wanted e listed cold
    obtain ⟨node, found⟩ := (replays_of_lpRows listed).live
    obtain ⟨basis, warm⟩ := warmStart_live settled found
    rw [warm] at cold
    cases cold
  · intro wanted start listed _
    have replays := replays_of_lpRows listed
    obtain ⟨node, found⟩ := replays.live
    obtain ⟨path, walked⟩ := pathTo_live shaped' found
    have held (row : RowId) (member : row ∈ wanted) :
        row ∈ (owed + Holder.holdings s.own).rows := by
      rw [Holdings.rows_add]
      exact Multiset.mem_add.2 (.inr (replays.held member))
    apply (loads wanted start listed held).imp
    · intro edits lp' turns
      refine ⟨turns, fun e lost => ?_⟩
      rw [walked] at lost
      cases lost
    · intro _ _ refused
      exact refused

/-- The desk once a node is the focus and the marks are set. -/
private theorem moves_load {s : Linked Tree} {tree : Tree} {wanted : List RowId}
    (replays : Replays s.own.nodes id wanted) (touched : Touched s.own tree) :
    Moves {.plain} s.desk (Tree.desk { tree with focus := some id } wanted) := by
  have load := Move.load (show Replays s.desk.nodes id wanted from replays)
  have marked := touched.moves { s.desk with focus := some id, loaded := wanted } rfl
  have whole := (Moves.one load (Set.mem_singleton Deed.plain)).trans marked
  unfold Tree.desk
  dsimp only
  rw [touched.root, touched.created, touched.freed]
  exact whole

theorem focusOn_ensures {s : Linked Tree} {owed : Holdings} (settled : Settled s owed)
    (shaped : s.desk.Shaped) (id : NodeId) :
    (focusOn id).Ensures s
      (fun _ s' => (Settled s' owed ∧ Moves {.plain} s.desk s'.desk) ∧ s'.own.focus = some id ∧
        Replays s.own.nodes id s'.lp.loadedRows ∧
        ∀ other node, s.own.nodes.get? other = some node →
          ∃ node', s'.own.nodes.get? other = some node' ∧ node'.payload = node.payload)
      (fun _ s' => (Settled s' owed ∧ Moves {.plain} s.desk s'.desk) ∧
        (s.own.contains id = false ∨ ∃ rows, Replays s.own.nodes id rows ∧ ¬rows.Nodup)) := by
  apply ensures_focusOn_held settled shaped
  · intro gone _
    exact ⟨⟨settled, .rfl⟩, .inl gone⟩
  · intro wanted start listed held
    have replays := replays_of_lpRows listed
    apply (reload_ensures settled held).imp
    · intro edits lp' loaded path _
      obtain ⟨balanced, rows⟩ := loaded
      have settled' : Settled (Linked.mk s.own (warmed lp' start)) owed :=
        warmed_balanced balanced start
      have rows' : (warmed lp' start).loadedRows = wanted := (loadedRows_warmed _ _).trans rows
      have touched := (marks_touched false s.own s.own.activePath).trans (marks_touched true _ path)
      have moves := moves_load replays touched
      rw [← rows'] at moves replays
      exact ⟨⟨settled'.congr touched.holds, moves⟩, rfl, replays, touched.payloads⟩
    · intro _ lp' refused
      have repeated := refused.2.not_nodup
      have loose : Move .plain s.desk { s.desk with loaded := lp'.loadedRows } :=
        .adjust (.inr ⟨id, wanted, replays, repeated⟩)
      exact ⟨⟨refused.1, .one loose (Set.mem_singleton _)⟩, .inr ⟨wanted, replays, repeated⟩⟩

end BranchCutPrice.Tree
