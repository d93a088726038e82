import BranchCutPrice.Proofs.Separating
import BranchCutPrice.Proofs.Switching

/-!
Starting a search that has begun. The rows are captured for a root and unloaded before the root
is refused, and they are not loaded again.
-/

namespace BranchCutPrice

/-! ### Objects that stay as they are -/

namespace Registry

variable {kind : Kind} {α : Type} {registry registry' : Registry kind α}

/-- The same objects are registered, with as many users. -/
def Alike (registry registry' : Registry kind α) : Prop :=
  ∀ handle, registry'.users handle = registry.users handle ∧
    registry'.get handle = registry.get handle

/-- Where all users stay, so do the objects, if none of them was replaced. -/
theorem Alike.of_users {owed owed' : Multiset (Handle kind)} (before : registry.Balanced owed)
    (after : registry'.Balanced owed')
    (users : ∀ handle, registry'.users handle = registry.users handle)
    (kept : ∀ handle item, 0 < registry.users handle → registry'.get handle = .ok item →
      registry.get handle = .ok item) : registry.Alike registry' := by
  intro handle
  refine ⟨users handle, ?_⟩
  have same := users handle
  cases found : registry.table.get? handle with
  | none =>
    cases found' : registry'.table.get? handle with
    | none =>
      unfold get shared
      rw [found, found']
    | some object =>
      have used := after.used handle object found'
      rw [users_of_stale found, users_of_found found'] at same
      omega
  | some object =>
    have used := before.used handle object found
    rw [← users_of_found found] at used
    cases found' : registry'.table.get? handle with
    | none =>
      rw [users_of_stale found'] at same
      omega
    | some object' =>
      rw [get_named found', kept handle _ used (get_named found')]

end Registry

namespace Relaxation

open BranchCutPrice.Action

variable {lp lp' : Relaxation} {owed : Holdings}

theorem unloadLast_follows (row : RowId) : (unloadLast row).Respects Follows :=
  Respects.bind (respects_modify (R := Follows) fun _ => ⟨rfl, .rfl⟩)
    fun _ => releaseRow_follows row

theorem shrinkRows_follows (length : Nat) : (shrinkRows length).Respects Follows :=
  respects_get.bind fun _ => Respects.forM unloadLast_follows _

theorem releaseBasis_within (basis : BasisId) :
    (releaseBasis basis).Reaches lp fun lp' =>
      lp' = { lp with bases := lp'.bases } ∧ lp'.bases.Within lp.bases := by
  refine ensures_change.2 ⟨fun lp' changed => ?_, fun _ _ => ⟨rfl, .rfl⟩⟩
  cases released : lp.bases.release basis with
  | error e => simp [released, bind, Except.bind] at changed
  | ok outcome =>
    simp only [released, bind, Except.bind] at changed
    cases changed
    exact ⟨rfl, Registry.within_release released⟩

/-- A basis that was registered before the snapshot is what it was. -/
theorem basis_snapshotted (balanced : lp.Balanced owed) (roomy : lp.bases.table.Roomy)
    {basis : BasisId} {value : Basis} (used : 0 < lp.bases.users basis)
    (got : lp.snapshotted.bases.get basis = .ok value) : lp.bases.get basis = .ok value := by
  have sound := balanced.bases.sound
  have inserted := SlotTable.get?_insert sound (a := ⟨lp.basis, 1⟩) roomy.fits_insert basis
  have different : basis ≠ (lp.bases.table.insert ⟨lp.basis, 1⟩).1 := by
    rintro rfl
    rw [Registry.users_of_stale (SlotTable.get?_new sound roomy.fits_insert)] at used
    exact Nat.lt_irrefl 0 used
  rw [if_neg different] at inserted
  unfold Registry.get Registry.shared at got ⊢
  rw [← inserted]
  exact got

/-- No row is loaded any more, but every object and every user is still there. -/
structure Stripped (lp lp' : Relaxation) : Prop where
  loaded : lp'.loadedRows = []
  unloaded : ∀ row, lp'.isRowLoaded row = false
  rows : lp.rows.Alike lp'.rows
  bases : lp.bases.Alike lp'.bases
  rest : lp' = { lp with
    rows := lp'.rows
    bases := lp'.bases
    loadedRows := []
    rowPositions := lp'.rowPositions }

theorem Stripped.of_balanced (before : lp.Balanced owed)
    (after : lp'.Balanced (owed + .ofRows lp.loadedRows)) (loaded : lp'.loadedRows = [])
    (rows : lp'.rows.Within lp.rows)
    (bases : ∀ basis value, 0 < lp.bases.users basis → lp'.bases.get basis = .ok value →
      lp.bases.get basis = .ok value)
    (rest : lp' = { lp with
      rows := lp'.rows
      bases := lp'.bases
      loadedRows := []
      rowPositions := lp'.rowPositions }) : Stripped lp lp' := by
  have moved : owed + .ofRows lp.loadedRows + 0 = owed + .ofRows lp.loadedRows := add_zero _
  refine ⟨loaded, fun row => ?_, .of_users before.rows after.rows (fun row => ?_)
    (fun row item _ => rows row item), .of_users before.bases after.bases (fun basis => ?_) bases,
    rest⟩
  · rw [← Bool.not_eq_true, after.isRowLoaded_iff, loaded]
    exact List.not_mem_nil
  · have users := before.users_rows after moved row
    rw [loaded] at users
    simpa [Holdings.ofRows] using users
  · simpa [Holdings.ofRows] using before.users_bases after moved basis

end Relaxation

namespace Session

open BranchCutPrice.Action Relaxation

variable {s : Session} {owed : Holdings}

/-- The root is refused after the rows have been unloaded. -/
theorem start_strips (settled : Settled s owed) (roomy : s.lp.bases.table.Roomy)
    (rooted : s.tree.root.isSome = true) :
    start.Ensures s (fun _ _ => False) fun e s' => e = .invalid .rootExists ∧
      ∃ lp', s' = { s with lp := lp' } ∧ s.lp.Stripped lp' := by
  unfold start
  rw [ensures_bind, ensures_get, ensures_bind, ensures_run]
  -- the rows change in the first two steps, and the bases in the other ones
  have loaded : ∀ row ∈ s.lp.loadedRows, row ∈ s.lp.loadedRows := fun _ member => member
  have captures := Completes.also (captureRows_ensures settled s.lp.loadedRows loaded)
    ((Respects.forM captureRow_rowless _ s.lp).and (Respects.forM captureRow_follows _ s.lp))
  apply captures.leads
  rintro _ lp₁ ⟨⟨balanced₁, still₁⟩, same₁, follows₁⟩
  rw [ensures_bind, ensures_run]
  have unloads := Completes.also (shrinkRows_ensures balanced₁ 0)
    ((shrinkRows_rowless 0 lp₁).and (shrinkRows_follows 0 lp₁))
  apply unloads.leads
  rintro _ lp₂ ⟨⟨balanced₂, loaded₂, slots₂⟩, same₂, follows₂⟩
  rw [ensures_bind, ensures_run]
  have roomy₂ : lp₂.bases.table.Roomy := slots₂.trans_lt (still₁.slots.trans_lt roomy)
  apply ((snapshotBasis_inserts lp₂).also (snapshotBasis_ensures balanced₂ roomy₂)).leads
  rintro basis lp₃ ⟨⟨_, same₃⟩, balanced₃, loaded₃⟩
  rw [ensures_bind, ensures_attempt]
  unfold onTree
  rw [ensures_run]
  apply (Tree.createRoot_rooted (s := ⟨s.tree, lp₃⟩) rooted basis).imp
  · intro _ _ no
    exact no.elim
  · rintro e _ ⟨rfl, rfl⟩
    rw [ensures_bind, ensures_run]
    apply (Completes.also (releaseBasis_ensures balanced₃) (releaseBasis_within basis)).leads
    rintro _ lp₄ ⟨⟨balanced₄, still₄⟩, only₄, within₄⟩
    rw [ensures_bind, ensures_resume_error]
    have loaded : lp₄.loadedRows = [] := by
      rw [still₄.loadedRows, loaded₃, loaded₂, List.take_zero]
    have bases : lp₂.bases = s.lp.bases := by
      rw [same₂.eq, same₁.eq]
    refine ⟨rfl, lp₄, rfl, .of_balanced settled balanced₄ loaded ?_ ?_ ?_⟩
    · rw [only₄, same₃]
      exact follows₂.rows.trans follows₁.rows
    · intro basis value used got
      rw [same₃] at within₄
      rw [← bases] at used ⊢
      exact basis_snapshotted balanced₂ roomy₂ used (within₄ basis value got)
    · rw [← loaded, only₄, same₃, same₂.eq, same₁.eq]
      rfl

end Session

variable {ι : Type} [Fintype ι] [DecidableEq ι] [Inhabited ι] {rule : Rule ι} {w : World ι}

/-- A search that has begun cannot be started, and an attempt to unloads all rows. -/
theorem start_again (reached : Reachable rule w) (rooted : w.session.tree.root.isSome = true) :
    (Session.start w.session).result = .error (.invalid .rootExists) ∧
      ∃ lp, (Session.start w.session).state = { w.session with lp := lp } ∧ w.lp.Stripped lp := by
  obtain ⟨_, settled, _, roomy⟩ := reached.session
  have strips := Session.start_strips settled roomy.lp.bases rooted
  cases ended : (Session.start w.session).result with
  | ok id => exact (Action.ensures_of_ok ended strips).elim
  | error e =>
    obtain ⟨rfl, stripped⟩ := Action.ensures_of_error ended strips
    exact ⟨rfl, stripped⟩

/-- A search that has begun with a row. -/
def World.begun : World Unit :=
  World.initial.after [.client (.createRow ⟨"base", ⟨1, []⟩, 0, 1, false⟩),
    .client (.loadRow ⟨0, 0⟩), .session .start]

theorem World.begun_reachable : Reachable (fun _ _ => True) World.begun := by
  have plays : Plays (fun _ _ => True) World.initial
      [.client (.createRow ⟨"base", ⟨1, []⟩, 0, 1, false⟩), .client (.loadRow ⟨0, 0⟩),
        .session .start] := by
    decide +kernel
  exact plays.reachable

theorem start_again_begun : World.begun.session.tree.root.isSome = true ∧
    (Session.start World.begun.session).result = .error (.invalid .rootExists) ∧
    ∃ lp, (Session.start World.begun.session).state = { World.begun.session with lp := lp } ∧
      World.begun.lp.Stripped lp :=
  have rooted : World.begun.session.tree.root.isSome = true := by
    decide +kernel
  ⟨rooted, start_again World.begun_reachable rooted⟩

/-- The focus loses the row that is its own. -/
theorem start_again_unloads :
    Reachable (fun _ _ => True) World.begun ∧ World.begun.session.tree.root = some ⟨0, 0⟩ ∧
      World.begun.session.tree.focus = some ⟨0, 0⟩ ∧
      World.begun.session.tree.lpRows ⟨0, 0⟩ = .ok [⟨0, 0⟩] ∧
      World.begun.session.lp.loadedRows = [⟨0, 0⟩] ∧
      (Session.start World.begun.session).result = .error (.invalid .rootExists) ∧
      (Session.start World.begun.session).state.lp.loadedRows = [] :=
  ⟨World.begun_reachable, by decide +kernel, by decide +kernel, by decide +kernel,
    by decide +kernel, by decide +kernel, by decide +kernel⟩

end BranchCutPrice
