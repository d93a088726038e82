import BranchCutPrice.Proofs.Holdings

/-!
What the actions of the relaxation do to a balanced relaxation. Held objects can always
be captured and released, and apart from the objects captured, released and created the
balance stays the same, whether an action is refused or not.
-/

namespace BranchCutPrice.Relaxation

open BranchCutPrice.Action

/-- Apart from the users of the registered objects nothing has changed. -/
structure Still (lp lp' : Relaxation) : Prop where
  same : lp' = { lp with rows := lp'.rows, columns := lp'.columns, bases := lp'.bases }
  slots : lp'.bases.table.slots.size = lp.bases.table.slots.size

theorem Still.rfl {lp : Relaxation} : Still lp lp :=
  ⟨Eq.refl lp, Eq.refl _⟩

theorem Still.trans {lp lp' lp'' : Relaxation} (first : Still lp lp') (second : Still lp' lp'') :
    Still lp lp'' := by
  refine ⟨?_, second.slots.trans first.slots⟩
  rw [second.same, first.same]

theorem Still.loadedRows {lp lp' : Relaxation} (still : Still lp lp') :
    lp'.loadedRows = lp.loadedRows := by
  rw [still.same]

variable {lp : Relaxation} {owed : Holdings}

/-! ### Capturing -/

theorem captureRow_live {row : RowId} (live : lp.rows.contains row = true) :
    (captureRow row).Completes lp fun _ _ => True := by
  obtain ⟨rows, captured⟩ := Registry.capture_live live
  refine ensures_change.2 ⟨fun _ _ => trivial, fun e refused => ?_⟩
  rw [captured] at refused
  cases refused

theorem captureColumn_live {column : ColumnId} (live : lp.columns.contains column = true) :
    (captureColumn column).Completes lp fun _ _ => True := by
  obtain ⟨columns, captured⟩ := Registry.capture_live live
  refine ensures_change.2 ⟨fun _ _ => trivial, fun e refused => ?_⟩
  rw [captured] at refused
  cases refused

theorem captureRow_ensures (balanced : lp.Balanced owed) (row : RowId) :
    (captureRow row).Ensures lp
      (fun _ lp' => lp'.Balanced (owed + .ofRows {row}) ∧ Still lp lp') (fun _ lp' => lp' = lp) := by
  refine ensures_change.2 ⟨fun lp' changed => ?_, fun _ _ => rfl⟩
  cases captured : lp.rows.capture row with
  | error e => simp [captured, bind, Except.bind] at changed
  | ok rows =>
    rw [captured] at changed
    cases changed
    have counted := balanced.rows.capture captured
    rw [← Multiset.singleton_add, ← add_assoc, add_comm ({row} : Multiset RowId)] at counted
    exact ⟨balanced.withRows counted (add_zero _) (add_zero _), rfl, rfl⟩

theorem captureRow_held (balanced : lp.Balanced owed) {row : RowId}
    (held : row ∈ owed.rows + lp.loadedRows) :
    (captureRow row).Ensures lp
      (fun _ lp' => lp'.Balanced (owed + .ofRows {row}) ∧ Still lp lp') (fun _ _ => False) := by
  exact ((captureRow_live (balanced.rows.live held)).also (captureRow_ensures balanced row)).mono
    fun _ _ both => both.2

theorem captureColumn_ensures (balanced : lp.Balanced owed) (column : ColumnId) :
    (captureColumn column).Ensures lp
      (fun _ lp' => lp'.Balanced (owed + .ofColumns {column}) ∧ Still lp lp')
      (fun _ lp' => lp' = lp) := by
  refine ensures_change.2 ⟨fun lp' changed => ?_, fun _ _ => rfl⟩
  cases captured : lp.columns.capture column with
  | error e => simp [captured, bind, Except.bind] at changed
  | ok columns =>
    rw [captured] at changed
    cases changed
    have counted := balanced.columns.capture captured
    rw [← Multiset.singleton_add, ← add_assoc, add_comm ({column} : Multiset ColumnId)] at counted
    exact ⟨balanced.withColumns counted (add_zero _) (add_zero _), rfl, rfl⟩

theorem captureBasis_ensures (balanced : lp.Balanced owed) (basis : BasisId) :
    (captureBasis basis).Ensures lp
      (fun _ lp' => lp'.Balanced (owed + .ofBases {basis}) ∧ Still lp lp')
      (fun _ lp' => lp' = lp ∧ lp.bases.contains basis = false) := by
  unfold captureBasis
  rw [ensures_change]
  constructor
  · intro lp' changed
    cases captured : lp.bases.capture basis with
    | error e => simp [captured, bind, Except.bind] at changed
    | ok bases =>
      rw [captured] at changed
      cases changed
      have counted := balanced.bases.capture captured
      rw [← Multiset.singleton_add, add_comm] at counted
      exact ⟨balanced.withBases counted (add_zero _) (add_zero _), rfl,
        Registry.capture_slots captured⟩
  · intro e refused
    refine ⟨rfl, ?_⟩
    cases live : lp.bases.contains basis with
    | false => rfl
    | true =>
      obtain ⟨bases, captured⟩ := Registry.capture_live live
      rw [captured] at refused
      cases refused

/-- Loaded rows can be captured, one after the other. -/
theorem captureRows_ensures (balanced : lp.Balanced owed) (rows : List RowId)
    (loaded : ∀ row ∈ rows, row ∈ lp.loadedRows) :
    (captureRows rows).Ensures lp
      (fun _ lp' => lp'.Balanced (owed + .ofRows rows) ∧ Still lp lp') (fun _ _ => False) := by
  induction rows generalizing lp owed with
  | nil => exact ⟨(add_zero owed).symm ▸ balanced, .rfl⟩
  | cons row rest ih =>
    change (captureRow row >>= fun _ => captureRows rest).Ensures lp _ _
    rw [ensures_bind]
    have held : row ∈ owed.rows + lp.loadedRows :=
      Multiset.mem_add.2 (.inr (loaded row List.mem_cons_self))
    refine (captureRow_held balanced held).imp (fun _ lp' captured => ?_) (fun _ _ no => no)
    obtain ⟨balanced', still⟩ := captured
    refine (ih balanced' fun other member => ?_).imp (fun _ lp'' done => ?_) (fun _ _ no => no)
    · exact still.loadedRows.symm ▸ loaded other (List.mem_cons_of_mem _ member)
    · rw [add_assoc, ← Holdings.ofRows_add, Multiset.singleton_add] at done
      exact ⟨done.1, still.trans done.2⟩

/-! ### Releasing -/

theorem releaseRow_ensures {row : RowId} (balanced : lp.Balanced (owed + .ofRows {row})) :
    (releaseRow row).Ensures lp (fun _ lp' => lp'.Balanced owed ∧ Still lp lp')
      (fun _ _ => False) := by
  have counted := balanced.rows
  change lp.rows.Balanced (owed.rows + {row} + lp.loadedRows) at counted
  rw [add_right_comm, add_comm, Multiset.singleton_add] at counted
  obtain ⟨freed, rows, released, rest⟩ := counted.release
  refine ensures_change.2 ⟨fun lp' changed => ?_, fun e refused => ?_⟩
  · rw [released] at changed
    cases changed
    exact ⟨balanced.withRows rest (add_zero _).symm (add_zero _).symm, rfl, rfl⟩
  · rw [released] at refused
    cases refused

theorem releaseColumn_ensures {column : ColumnId}
    (balanced : lp.Balanced (owed + .ofColumns {column})) :
    (releaseColumn column).Ensures lp (fun _ lp' => lp'.Balanced owed ∧ Still lp lp')
      (fun _ _ => False) := by
  have counted := balanced.columns
  change lp.columns.Balanced (owed.columns + {column} + lp.loadedColumns) at counted
  rw [add_right_comm, add_comm, Multiset.singleton_add] at counted
  obtain ⟨freed, columns, released, rest⟩ := counted.release
  refine ensures_change.2 ⟨fun lp' changed => ?_, fun e refused => ?_⟩
  · rw [released] at changed
    cases changed
    exact ⟨balanced.withColumns rest (add_zero _).symm (add_zero _).symm, rfl, rfl⟩
  · rw [released] at refused
    cases refused

theorem releaseBasis_ensures {basis : BasisId}
    (balanced : lp.Balanced (owed + .ofBases {basis})) :
    (releaseBasis basis).Ensures lp (fun _ lp' => lp'.Balanced owed ∧ Still lp lp')
      (fun _ _ => False) := by
  have counted := balanced.bases
  change lp.bases.Balanced (owed.bases + {basis}) at counted
  rw [add_comm, Multiset.singleton_add] at counted
  obtain ⟨freed, bases, released, rest⟩ := counted.release
  refine ensures_change.2 ⟨fun lp' changed => ?_, fun e refused => ?_⟩
  · rw [released] at changed
    cases changed
    exact ⟨balanced.withBases rest (add_zero _).symm (add_zero _).symm, rfl,
      Registry.release_slots released⟩
  · rw [released] at refused
    cases refused

theorem releaseBasis_releases (lp : Relaxation) (basis : BasisId) :
    (releaseBasis basis).Ensures lp
      (fun _ lp' => ∃ freed bases, lp.bases.release basis = .ok (freed, bases) ∧
        lp' = { lp with bases := bases })
      (fun _ lp' => lp' = lp) := by
  refine ensures_change.2 ⟨fun lp' changed => ?_, fun _ _ => rfl⟩
  cases released : lp.bases.release basis with
  | error e =>
    rw [released] at changed
    cases changed
  | ok pair =>
    rw [released] at changed
    cases changed
    exact ⟨_, _, rfl, rfl⟩

theorem releaseRows_ensures (rows : List RowId) (balanced : lp.Balanced (owed + .ofRows rows)) :
    (releaseRows rows).Ensures lp (fun _ lp' => lp'.Balanced owed ∧ Still lp lp')
      (fun _ _ => False) := by
  induction rows generalizing lp with
  | nil => exact ⟨add_zero owed ▸ balanced, .rfl⟩
  | cons row rest ih =>
    change (releaseRow row >>= fun _ => releaseRows rest).Ensures lp _ _
    rw [ensures_bind]
    rw [← Multiset.cons_coe, ← Multiset.singleton_add, add_comm ({row} : Multiset RowId),
      Holdings.ofRows_add, ← add_assoc] at balanced
    refine (releaseRow_ensures balanced).imp (fun _ lp' released => ?_) (fun _ _ no => no)
    exact (ih released.1).imp (fun _ _ done => ⟨done.1, released.2.trans done.2⟩) (fun _ _ no => no)

theorem releaseColumns_ensures (columns : List ColumnId)
    (balanced : lp.Balanced (owed + .ofColumns columns)) :
    (releaseColumns columns).Ensures lp (fun _ lp' => lp'.Balanced owed ∧ Still lp lp')
      (fun _ _ => False) := by
  induction columns generalizing lp with
  | nil => exact ⟨add_zero owed ▸ balanced, .rfl⟩
  | cons column rest ih =>
    change (releaseColumn column >>= fun _ => releaseColumns rest).Ensures lp _ _
    rw [ensures_bind]
    rw [← Multiset.cons_coe, ← Multiset.singleton_add, add_comm ({column} : Multiset ColumnId),
      Holdings.ofColumns_add, ← add_assoc] at balanced
    refine (releaseColumn_ensures balanced).imp (fun _ lp' released => ?_) (fun _ _ no => no)
    exact (ih released.1).imp (fun _ _ done => ⟨done.1, released.2.trans done.2⟩) (fun _ _ no => no)

/-! ### Creating -/

theorem createRow_ensures (balanced : lp.Balanced owed) (roomy : lp.rows.table.Roomy) (row : Row) :
    (createRow row).Ensures lp
      (fun handle lp' => lp'.Balanced (owed + .ofRows {handle}) ∧ lp'.loadedRows = lp.loadedRows)
      (fun _ _ => False) := by
  have counted := balanced.rows.insert row roomy.fits_insert
  rw [← Multiset.singleton_add, ← add_assoc,
    add_comm ({(lp.rows.insert row).1} : Multiset RowId)] at counted
  exact ⟨balanced.withRows counted (add_zero _) (add_zero _), rfl⟩

theorem createColumn_ensures (balanced : lp.Balanced owed) (roomy : lp.columns.table.Roomy)
    (column : Column) :
    (createColumn column).Ensures lp
      (fun handle lp' => lp'.Balanced (owed + .ofColumns {handle}) ∧
        lp'.loadedRows = lp.loadedRows)
      (fun _ _ => False) := by
  have counted := balanced.columns.insert column roomy.fits_insert
  rw [← Multiset.singleton_add, ← add_assoc,
    add_comm ({(lp.columns.insert column).1} : Multiset ColumnId)] at counted
  exact ⟨balanced.withColumns counted (add_zero _) (add_zero _), rfl⟩

theorem createBasis_ensures (balanced : lp.Balanced owed) (roomy : lp.bases.table.Roomy)
    (basis : Basis) :
    (createBasis basis).Ensures lp
      (fun handle lp' => lp'.Balanced (owed + .ofBases {handle}) ∧ lp'.loadedRows = lp.loadedRows)
      (fun _ _ => False) := by
  have counted := balanced.bases.insert basis roomy.fits_insert
  rw [← Multiset.singleton_add, add_comm] at counted
  exact ⟨balanced.withBases counted (add_zero _) (add_zero _), rfl⟩

theorem snapshotBasis_ensures (balanced : lp.Balanced owed) (roomy : lp.bases.table.Roomy) :
    snapshotBasis.Ensures lp
      (fun handle lp' => lp'.Balanced (owed + .ofBases {handle}) ∧ lp'.loadedRows = lp.loadedRows)
      (fun _ _ => False) :=
  createBasis_ensures balanced roomy lp.basis

/-- The relaxation with its basis registered. -/
def snapshotted (lp : Relaxation) : Relaxation :=
  { lp with bases := (lp.bases.insert lp.basis).2 }

theorem snapshotBasis_inserts (lp : Relaxation) : snapshotBasis.Completes lp fun basis lp' =>
    basis = (lp.bases.insert lp.basis).1 ∧ lp' = lp.snapshotted :=
  ⟨rfl, rfl⟩

end BranchCutPrice.Relaxation
