import BranchCutPrice.Proofs.Ledger

/-!
What a client does with the relaxation itself. It keeps an account of what it captured and
releases only what is on it, so the relaxation stays balanced against the account,
whether a call is refused or not.
-/

namespace BranchCutPrice

open BranchCutPrice.Action Relaxation

theorem Action.discard_ensures {σ α : Type} {act : Action σ α} {s : σ} {done : σ → Prop}
    {refused : Error → σ → Prop} :
    (discard act : Action σ Unit).Ensures s (fun _ => done) refused ↔
      act.Ensures s (fun _ => done) refused := by
  change (act >>= fun _ => pure ()).Ensures s _ _ ↔ _
  rw [ensures_bind]
  simp only [ensures_pure]

theorem Action.discard_reaches {σ α : Type} {act : Action σ α} {s : σ} {reached : σ → Prop} :
    (discard act : Action σ Unit).Reaches s reached ↔ act.Reaches s reached :=
  discard_ensures

theorem Action.discard_state {σ α : Type} (act : Action σ α) (s : σ) :
    ((discard act : Action σ Unit) s).state = (act s).state := by
  change ((act s).andThen fun _ => pure ()).state = (act s).state
  rcases act s with ⟨result, reached, events⟩
  cases result <;> rfl

theorem Action.discard_error {σ α : Type} {act : Action σ α} {s : σ} {e : Error}
    (refused : ((discard act : Action σ Unit) s).result = .error e) :
    (act s).result = .error e := by
  change ((act s).andThen fun _ => pure ()).result = .error e at refused
  rcases ended : act s with ⟨result, reached, events⟩
  rw [ended] at refused
  cases result with
  | error e' =>
    cases refused
    rfl
  | ok a => cases refused

/-- Another object of each kind can be registered. -/
structure Relaxation.Roomy (lp : Relaxation) : Prop where
  rows : lp.rows.table.Roomy
  columns : lp.columns.table.Roomy
  bases : lp.bases.table.Roomy

namespace Relaxation

/-- Overwrites a registered row; its users stay. -/
def replaceRow (row : RowId) (value : Row) : Action Relaxation Unit :=
  .change fun lp => do return { lp with rows := ← lp.rows.replace row value }

def replaceColumn (column : ColumnId) (value : Column) : Action Relaxation Unit :=
  .change fun lp => do return { lp with columns := ← lp.columns.replace column value }

def replaceBasis (basis : BasisId) (value : Basis) : Action Relaxation Unit :=
  .change fun lp => do return { lp with bases := ← lp.bases.replace basis value }

variable {lp : Relaxation} {owed : Holdings}

theorem replaceRow_reaches (balanced : lp.Balanced owed) (row : RowId) (value : Row) :
    (replaceRow row value).Reaches lp fun lp' =>
      lp'.Balanced owed ∧ lp'.loadedRows = lp.loadedRows := by
  apply ensures_change.2
  constructor
  · intro lp' changed
    cases replaced : lp.rows.replace row value with
    | error => simp [replaced, bind, Except.bind] at changed
    | ok rows =>
      rw [replaced] at changed
      cases changed
      exact ⟨balanced.withRows (balanced.rows.replace replaced) rfl rfl, rfl⟩
  · intro _ _
    exact ⟨balanced, rfl⟩

theorem replaceColumn_reaches (balanced : lp.Balanced owed) (column : ColumnId)
    (value : Column) :
    (replaceColumn column value).Reaches lp fun lp' =>
      lp'.Balanced owed ∧ lp'.loadedRows = lp.loadedRows := by
  apply ensures_change.2
  constructor
  · intro lp' changed
    cases replaced : lp.columns.replace column value with
    | error => simp [replaced, bind, Except.bind] at changed
    | ok columns =>
      rw [replaced] at changed
      cases changed
      exact ⟨balanced.withColumns (balanced.columns.replace replaced) rfl rfl, rfl⟩
  · intro _ _
    exact ⟨balanced, rfl⟩

theorem replaceBasis_reaches (balanced : lp.Balanced owed) (basis : BasisId) (value : Basis) :
    (replaceBasis basis value).Reaches lp fun lp' =>
      lp'.Balanced owed ∧ lp'.loadedRows = lp.loadedRows := by
  apply ensures_change.2
  constructor
  · intro lp' changed
    cases replaced : lp.bases.replace basis value with
    | error => simp [replaced, bind, Except.bind] at changed
    | ok bases =>
      rw [replaced] at changed
      cases changed
      exact ⟨balanced.withBases (balanced.bases.replace replaced) rfl rfl, rfl⟩
  · intro _ _
    exact ⟨balanced, rfl⟩

end Relaxation

/-! ### The account of the client -/

namespace Holdings

instance : Sub Holdings :=
  ⟨fun a b => ⟨a.rows - b.rows, a.columns - b.columns, a.bases - b.bases⟩⟩

theorem sub_add_cancel {account part : Holdings} (rows : part.rows ≤ account.rows)
    (columns : part.columns ≤ account.columns) (bases : part.bases ≤ account.bases) :
    account - part + part = account := by
  ext1
  · exact Multiset.sub_add_cancel rows
  · exact Multiset.sub_add_cancel columns
  · exact Multiset.sub_add_cancel bases

end Holdings

/-- What a client does with the relaxation itself. -/
inductive ClientCall where
  | createRow (row : Row)
  | createColumn (column : Column)
  | createBasis (basis : Basis)
  | snapshotBasis
  | captureRow (row : RowId)
  | captureColumn (column : ColumnId)
  | captureBasis (basis : BasisId)
  | releaseRow (row : RowId)
  | releaseColumn (column : ColumnId)
  | releaseBasis (basis : BasisId)
  | replaceRow (row : RowId) (value : Row)
  | replaceColumn (column : ColumnId) (value : Column)
  | replaceBasis (basis : BasisId) (value : Basis)
  | setBasis (basis : Basis)
  | loadRow (row : RowId)
  | unloadRow (row : RowId)
  | shrinkRows (length : Nat)
  | loadColumn (column : ColumnId)
  | clear
  | installSolution (primal duals : Array Float) (objective : Float)
  | installFarkas (proof : Array Float)

/-- Enters what the client comes to hold into its account. -/
def gain {α : Type} (act : Action Relaxation α) (gained : α → Holdings) :
    Action (Linked Holdings) Unit := do
  let a ← onLp act
  onOwn (modify (· + gained a))

/-- Strikes what the client lets go of off its account. -/
def spend (act : Action Relaxation Unit) (spent : Holdings) : Action (Linked Holdings) Unit := do
  onLp act
  onOwn (modify (· - spent))

namespace ClientCall

def perform : ClientCall → Action (Linked Holdings) Unit
  | createRow row => gain (Relaxation.createRow row) fun handle => .ofRows {handle}
  | createColumn column => gain (Relaxation.createColumn column) fun handle => .ofColumns {handle}
  | createBasis basis => gain (Relaxation.createBasis basis) fun handle => .ofBases {handle}
  | snapshotBasis => gain Relaxation.snapshotBasis fun handle => .ofBases {handle}
  | captureRow row => gain (Relaxation.captureRow row) fun _ => .ofRows {row}
  | captureColumn column => gain (Relaxation.captureColumn column) fun _ => .ofColumns {column}
  | captureBasis basis => gain (Relaxation.captureBasis basis) fun _ => .ofBases {basis}
  | releaseRow row => spend (Relaxation.releaseRow row) (.ofRows {row})
  | releaseColumn column => spend (Relaxation.releaseColumn column) (.ofColumns {column})
  | releaseBasis basis => spend (Relaxation.releaseBasis basis) (.ofBases {basis})
  | replaceRow row value => onLp (Relaxation.replaceRow row value)
  | replaceColumn column value => onLp (Relaxation.replaceColumn column value)
  | replaceBasis basis value => onLp (Relaxation.replaceBasis basis value)
  | setBasis basis => onLp (Relaxation.setBasis basis)
  | loadRow row => onLp (Relaxation.loadRow row)
  | unloadRow row => onLp (Relaxation.unloadRow row)
  | shrinkRows length => onLp (Relaxation.shrinkRows length)
  | loadColumn column => onLp (Relaxation.loadColumn column)
  | clear => onLp Relaxation.clear
  | installSolution primal duals objective =>
      onLp (discard (Relaxation.installSolution primal duals objective))
  | installFarkas proof => onLp (discard (Relaxation.installFarkas proof))

/-- Whether the list of loaded rows is changed directly. -/
def editsRows : ClientCall → Bool
  | loadRow _ | unloadRow _ | shrinkRows _ | clear => true
  | _ => false

/-- A client releases only what it holds itself. -/
def Permitted (account : Holdings) : ClientCall → Prop
  | releaseRow row => row ∈ account.rows
  | releaseColumn column => column ∈ account.columns
  | releaseBasis basis => basis ∈ account.bases
  | _ => True

instance (account : Holdings) : (call : ClientCall) → Decidable (call.Permitted account)
  | releaseRow row => inferInstanceAs (Decidable (row ∈ account.rows))
  | releaseColumn column => inferInstanceAs (Decidable (column ∈ account.columns))
  | releaseBasis basis => inferInstanceAs (Decidable (basis ∈ account.bases))
  | createRow _ | createColumn _ | createBasis _ | snapshotBasis | captureRow _
  | captureColumn _ | captureBasis _ | replaceRow _ _ | replaceColumn _ _ | replaceBasis _ _
  | setBasis _ | loadRow _ | unloadRow _ | shrinkRows _ | loadColumn _ | clear
  | installSolution _ _ _ | installFarkas _ => isTrue trivial

section

variable {s : Linked Holdings} {owed : Holdings}

theorem gain_reaches {α : Type} {act : Action Relaxation α} {gained : α → Holdings}
    (settled : Settled s owed)
    (gains : act.Ensures s.lp
      (fun a lp' => lp'.Balanced (owed + s.own + gained a) ∧ lp'.loadedRows = s.lp.loadedRows)
      (fun _ lp' => lp' = s.lp)) :
    (gain act gained).Reaches s fun s' =>
      Settled s' owed ∧ s'.lp.loadedRows = s.lp.loadedRows := by
  unfold Reaches gain
  rw [ensures_bind, ensures_onLp]
  apply gains.imp
  · intro a lp' done
    rw [ensures_onOwn, ensures_modify]
    refine ⟨?_, done.2⟩
    change lp'.Balanced (owed + (s.own + gained a))
    rw [← add_assoc]
    exact done.1
  · intro _ _ same
    rw [same]
    exact ⟨settled, rfl⟩

theorem spend_reaches {act : Action Relaxation Unit} {spent : Holdings}
    (settled : Settled s owed) (held : s.own - spent + spent = s.own)
    (spends : ∀ rest, s.lp.Balanced (rest + spent) →
      act.Ensures s.lp (fun _ lp' => lp'.Balanced rest ∧ Still s.lp lp') (fun _ _ => False)) :
    (spend act spent).Reaches s fun s' =>
      Settled s' owed ∧ s'.lp.loadedRows = s.lp.loadedRows := by
  have balanced : s.lp.Balanced (owed + (s.own - spent) + spent) := by
    rw [add_assoc, held]
    exact settled
  unfold Reaches spend
  rw [ensures_bind, ensures_onLp]
  apply Completes.leads (spends _ balanced)
  intro _ _ done
  rw [ensures_onOwn, ensures_modify]
  exact ⟨done.1, done.2.loadedRows⟩

/-- An object that was registered is on the account, and nothing is refused. -/
private theorem create_reaches {α : Type} {act : Action Relaxation α} {gained : α → Holdings}
    (settled : Settled s owed)
    (creates : act.Ensures s.lp
      (fun a lp' => lp'.Balanced (owed + s.own + gained a) ∧ lp'.loadedRows = s.lp.loadedRows)
      (fun _ _ => False)) :
    (gain act gained).Reaches s fun s' =>
      Settled s' owed ∧ s'.lp.loadedRows = s.lp.loadedRows := by
  apply gain_reaches settled
  exact Completes.leads creates fun _ _ done => done

private theorem capture_reaches {act : Action Relaxation Unit} {captured : Holdings}
    (settled : Settled s owed)
    (captures : act.Ensures s.lp
      (fun _ lp' => lp'.Balanced (owed + s.own + captured) ∧ Still s.lp lp')
      (fun _ lp' => lp' = s.lp)) :
    (gain act fun _ => captured).Reaches s fun s' =>
      Settled s' owed ∧ s'.lp.loadedRows = s.lp.loadedRows := by
  apply gain_reaches settled
  apply captures.imp
  · intro _ _ done
    exact ⟨done.1, done.2.loadedRows⟩
  · intro _ _ same
    exact same

/-- A client call keeps what is settled, and apart from the direct edits the loaded rows. -/
theorem perform_reaches (call : ClientCall) (settled : Settled s owed) (roomy : s.lp.Roomy)
    (permitted : call.Permitted s.own) :
    call.perform.Reaches s fun s' =>
      Settled s' owed ∧ (call.editsRows = false → s'.lp.loadedRows = s.lp.loadedRows) := by
  have quiet {act : Action (Linked Holdings) Unit}
      (keeps : act.Reaches s fun s' => Settled s' owed ∧ s'.lp.loadedRows = s.lp.loadedRows) :
      act.Reaches s fun s' =>
        Settled s' owed ∧ (call.editsRows = false → s'.lp.loadedRows = s.lp.loadedRows) := by
    apply keeps.imp
    · intro _ _ done
      exact ⟨done.1, fun _ => done.2⟩
    · intro _ _ kept
      exact ⟨kept.1, fun _ => kept.2⟩
  cases call with
  | createRow row => exact quiet (create_reaches settled (createRow_ensures settled roomy.rows row))
  | createColumn column =>
    exact quiet (create_reaches settled (createColumn_ensures settled roomy.columns column))
  | createBasis basis =>
    exact quiet (create_reaches settled (createBasis_ensures settled roomy.bases basis))
  | snapshotBasis =>
    exact quiet (create_reaches settled (snapshotBasis_ensures settled roomy.bases))
  | captureRow row => exact quiet (capture_reaches settled (captureRow_ensures settled row))
  | captureColumn column =>
    exact quiet (capture_reaches settled (captureColumn_ensures settled column))
  | captureBasis basis =>
    apply quiet
    apply capture_reaches settled
    apply (captureBasis_ensures settled basis).imp
    · intro _ _ done
      exact done
    · intro _ _ refused
      exact refused.1
  | releaseRow row =>
    have held : s.own - .ofRows {row} + .ofRows {row} = s.own :=
      Holdings.sub_add_cancel (Multiset.singleton_le.2 permitted) (Multiset.zero_le _)
        (Multiset.zero_le _)
    exact quiet (spend_reaches settled held fun _ balanced => releaseRow_ensures balanced)
  | releaseColumn column =>
    have held : s.own - .ofColumns {column} + .ofColumns {column} = s.own :=
      Holdings.sub_add_cancel (Multiset.zero_le _) (Multiset.singleton_le.2 permitted)
        (Multiset.zero_le _)
    exact quiet (spend_reaches settled held fun _ balanced => releaseColumn_ensures balanced)
  | releaseBasis basis =>
    have held : s.own - .ofBases {basis} + .ofBases {basis} = s.own :=
      Holdings.sub_add_cancel (Multiset.zero_le _) (Multiset.zero_le _)
        (Multiset.singleton_le.2 permitted)
    exact quiet (spend_reaches settled held fun _ balanced => releaseBasis_ensures balanced)
  | replaceRow row value =>
    exact quiet (ensures_onLp.2 (replaceRow_reaches settled row value))
  | replaceColumn column value =>
    exact quiet (ensures_onLp.2 (replaceColumn_reaches settled column value))
  | replaceBasis basis value =>
    exact quiet (ensures_onLp.2 (replaceBasis_reaches settled basis value))
  | setBasis basis =>
    apply quiet
    apply ensures_onLp.2
    exact Completes.reaches (setBasis_ensures settled basis) fun _ _ done => done
  | loadRow row =>
    apply ensures_onLp.2
    apply (loadRow_ensures settled row).imp
    · intro _ _ done
      exact ⟨done.1, nofun⟩
    · intro _ _ refused
      rw [refused.1]
      exact ⟨settled, nofun⟩
  | unloadRow row =>
    apply ensures_onLp.2
    apply (unloadRow_ensures settled row).imp
    · intro _ _ done
      exact ⟨done, nofun⟩
    · intro _ _ same
      rw [same]
      exact ⟨settled, nofun⟩
  | shrinkRows length =>
    apply ensures_onLp.2
    exact Completes.leads (shrinkRows_ensures settled length) fun _ _ done => ⟨done.1, nofun⟩
  | loadColumn column =>
    apply quiet
    apply ensures_onLp.2
    apply (loadColumn_ensures settled column).imp
    · intro _ _ done
      exact done
    · intro _ _ same
      rw [same]
      exact ⟨settled, rfl⟩
  | clear =>
    apply ensures_onLp.2
    exact Completes.leads (clear_ensures settled) fun _ _ done => ⟨done.1, nofun⟩
  | installSolution primal duals objective =>
    apply quiet
    apply ensures_onLp.2
    apply discard_reaches.2
    exact Completes.reaches (installSolution_ensures settled primal duals objective)
      fun _ _ done => done
  | installFarkas proof =>
    apply quiet
    apply ensures_onLp.2
    apply discard_reaches.2
    exact Completes.reaches (installFarkas_ensures settled proof) fun _ _ done => done

end

end ClientCall

end BranchCutPrice
