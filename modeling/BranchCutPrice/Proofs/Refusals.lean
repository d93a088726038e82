import BranchCutPrice.Proofs.Outcome
import BranchCutPrice.Tree.Content
import BranchCutPrice.Tree.Focus

/-!
Refusals that would show a wrong count of children. They come from counting a child less
and from nothing else that moves the focus, so no focus is refused because of a count.
-/

namespace BranchCutPrice

/-- The refusals of a node that cannot count a child less. -/
def Error.Miscount (e : Error) : Prop :=
  ∃ (payload : Payload) (slot : Nat), payload.releaseChild slot = .error e

theorem Error.miscount_iff {e : Error} :
    e.Miscount ↔ ∃ slot, e = .leafParent slot ∨ e = .childCountUnderflow slot := by
  constructor
  · intro miscount
    obtain ⟨payload, slot, refused⟩ := miscount
    refine ⟨slot, ?_⟩
    cases payload with
    | leaf basis added =>
      cases refused
      exact .inl rfl
    | fork added count =>
      cases count <;> cases refused
      exact .inr rfl
    | subroot rows count =>
      cases count <;> cases refused
      exact .inr rfl
  · intro named
    obtain ⟨slot, rfl | rfl⟩ := named
    · exact ⟨.leaf ⟨0, 0⟩ [], slot, rfl⟩
    · exact ⟨.fork [] 0, slot, rfl⟩

theorem Handle.stale_counts {kind : Kind} (handle : Handle kind) : ¬handle.stale.Miscount := by
  simp [Error.miscount_iff, Handle.stale]

/-- A value is refused for no wrong count. -/
def Tallies {α : Type} (value : Except Error α) : Prop :=
  ∀ e, value = .error e → ¬e.Miscount

section Values

variable {α β : Type}

theorem tallies_ok (a : α) : Tallies (.ok a) := by
  intro e refused
  cases refused

theorem tallies_error {e : Error} (other : ¬e.Miscount) :
    Tallies (.error e : Except Error α) := by
  intro e' refused
  cases refused
  exact other

theorem tallies_bind {value : Except Error α} {next : α → Except Error β}
    (first : Tallies value) (second : ∀ a, Tallies (next a)) : Tallies (value >>= next) := by
  intro e refused
  cases value with
  | error e' =>
    cases refused
    exact first e rfl
  | ok a => exact second a e refused

end Values

namespace Registry

variable {kind : Kind} {α : Type} (registry : Registry kind α) (handle : Handle kind)

theorem shared_tallies : Tallies (registry.shared handle) := by
  unfold shared
  cases registry.table.get? handle with
  | none => exact tallies_error handle.stale_counts
  | some object => exact tallies_ok object

theorem get_tallies : Tallies (registry.get handle) := by
  apply tallies_bind (registry.shared_tallies handle)
  intro object
  exact tallies_ok object.value

theorem capture_tallies : Tallies (registry.capture handle) := by
  apply tallies_bind (registry.shared_tallies handle)
  intro object
  exact tallies_ok _

theorem release_tallies : Tallies (registry.release handle) := by
  apply tallies_bind (registry.shared_tallies handle)
  intro object
  split
  · apply tallies_error
    simp [Error.miscount_iff]
  · split
    · exact tallies_ok _
    · exact tallies_ok _

end Registry

/-! ### Actions -/

/-- An action is refused for no wrong count. -/
def Action.Tallies {σ α : Type} (act : Action σ α) : Prop :=
  ∀ s, act.Ensures s (fun _ _ => True) fun e _ => ¬e.Miscount

namespace Action

variable {σ α β : Type}

/-- What holds of the state reached, while no refusal is for a wrong count. -/
abbrev Proceeds (act : Action σ α) (s : σ) (reached : σ → Prop) : Prop :=
  act.Ensures s (fun _ => reached) fun e s' => reached s' ∧ ¬e.Miscount

theorem Proceeds.reaches {act : Action σ α} {s : σ} {reached : σ → Prop}
    (proceeds : act.Proceeds s reached) : act.Reaches s reached := by
  apply proceeds.imp
  · intro _ _ done
    exact done
  · intro _ _ refused
    exact refused.1

theorem Tallies.proceeds {act : Action σ α} {s : σ} {reached : σ → Prop}
    (tallies : act.Tallies) (reaches : act.Reaches s reached) : act.Proceeds s reached := by
  apply (reaches.and (tallies s)).imp
  · intro _ _ done
    exact done.1
  · intro _ _ refused
    exact refused

theorem Tallies.bind {act : Action σ α} {next : α → Action σ β} (first : act.Tallies)
    (second : ∀ a, (next a).Tallies) : (act >>= next).Tallies := by
  intro s
  rw [ensures_bind]
  apply (first s).imp
  · intro a s' _
    exact second a s'
  · intro _ _ other
    exact other

theorem tallies_read {look : σ → Except Error α} (looks : ∀ s, BranchCutPrice.Tallies (look s)) :
    (read look).Tallies := by
  intro s
  apply ensures_read.2
  exact ⟨fun _ _ => trivial, looks s⟩

theorem tallies_change {step : σ → Except Error σ}
    (steps : ∀ s, BranchCutPrice.Tallies (step s)) : (change step).Tallies := by
  intro s
  apply ensures_change.2
  exact ⟨fun _ _ => trivial, steps s⟩

theorem Tallies.forM {f : β → Action σ PUnit} (each : ∀ b, (f b).Tallies) (items : List β) :
    (items.forM f).Tallies := by
  intro s
  exact ensures_forM (fun _ _ => True) (fun b _ s _ => each b s) items trivial

end Action

namespace Relaxation

open BranchCutPrice.Action

theorem releaseRow_tallies (row : RowId) : (releaseRow row).Tallies := by
  apply tallies_change
  intro lp
  apply tallies_bind (lp.rows.release_tallies row)
  intro released
  exact tallies_ok _

theorem loadRow_tallies (row : RowId) : (loadRow row).Tallies := by
  apply tallies_change
  intro lp
  split
  · apply tallies_error
    simp [Error.miscount_iff]
  · apply tallies_bind (lp.rows.capture_tallies row)
    intro rows
    exact tallies_ok _

theorem shrinkRows_tallies (length : Nat) : (shrinkRows length).Tallies := by
  intro lp
  unfold shrinkRows
  rw [ensures_bind, ensures_get]
  apply Tallies.forM
  intro row lp
  unfold unloadLast
  rw [ensures_bind, ensures_modify]
  exact releaseRow_tallies row _

end Relaxation

namespace Tree

open BranchCutPrice.Action

theorem node_tallies (tree : Tree) (id : NodeId) : Tallies (tree.node id) := by
  unfold node
  cases tree.nodes.get? id with
  | none => exact tallies_error id.stale_counts
  | some node => exact tallies_ok node

theorem ascend_tallies (tree : Tree) (stop : Node → Bool) (steps : Nat) (id : NodeId) :
    Tallies (tree.ascend stop steps id) := by
  induction steps generalizing id with
  | zero => exact tallies_error id.stale_counts
  | succ steps ih =>
    unfold ascend
    apply tallies_bind (tree.node_tallies id)
    intro node
    split
    · exact tallies_ok _
    · next above _ =>
      split
      · exact tallies_ok _
      · apply tallies_bind (ih above)
        intro path
        exact tallies_ok _

theorem lpRows_tallies (tree : Tree) (id : NodeId) : Tallies (tree.lpRows id) := by
  unfold lpRows lineage
  apply tallies_bind
  · apply tallies_bind (tree.ascend_tallies _ _ id)
    intro path
    exact tallies_ok _
  · intro nodes
    exact tallies_ok _

theorem warmStart_tallies (s : Linked Tree) (id : NodeId) : Tallies (warmStart s id) := by
  unfold warmStart
  apply tallies_bind (s.own.node_tallies id)
  intro node
  split
  · exact tallies_ok _
  · next basis _ =>
    apply tallies_bind (s.lp.bases.get_tallies basis)
    intro warm
    exact tallies_ok _

theorem reload_tallies (wanted : List RowId) : (reload wanted).Tallies := by
  intro lp
  unfold reload
  rw [ensures_bind, ensures_get]
  apply Tallies.bind (Relaxation.shrinkRows_tallies _)
  intro _
  apply Tallies.bind (.forM Relaxation.loadRow_tallies _)
  intro _ lp
  trivial

theorem popLeaf_tallies : popLeaf.Tallies := by
  intro tree
  trivial

theorem activate_tallies (id : NodeId) : (activate id).Tallies := by
  apply tallies_change
  intro tree
  unfold pathTo
  apply tallies_bind
  · apply tallies_bind (tree.ascend_tallies _ _ id)
    intro path
    exact tallies_ok _
  · intro path
    exact tallies_ok _

theorem focusOn_tallies (id : NodeId) : (focusOn id).Tallies := by
  unfold focusOn
  apply Tallies.bind (tallies_read fun s => s.own.lpRows_tallies id)
  intro wanted
  apply Tallies.bind (tallies_read fun s => warmStart_tallies s id)
  intro basis s
  rw [ensures_bind, ensures_get]
  apply Tallies.bind
  · intro s
    exact reload_tallies wanted s.lp
  · intro edits
    apply Tallies.bind
    · apply Tallies.forM
      intro basis s
      trivial
    · intro _
      apply Tallies.bind
      · intro s
        exact activate_tallies id s.own
      · intro _ s
        trivial

end Tree

end BranchCutPrice
