import BranchCutPrice.Proofs.Outcome
import BranchCutPrice.Session.Search

/-!
The progress that a search reports. Taking up a leaf ends with a report, if one is due, and
nothing before that reports progress, so what is reported is the progress of the session that
hands out the leaf.
-/

namespace BranchCutPrice

namespace Action

variable {σ τ α β : Type}

/-- An action that does not report progress. -/
def Silent (act : Action σ α) : Prop :=
  ∀ s progress, Event.progressed progress ∉ (act s).events

/-- An action that reports no progress but that of the state in which it ends. -/
def Reports (act : Action σ α) (look : σ → Progress) : Prop :=
  ∀ s progress, .progressed progress ∈ (act s).events → progress = look (act s).state

variable {act : Action σ α} {look : σ → Progress}

theorem silent_pure (a : α) : (pure a : Action σ α).Silent := fun _ _ => List.not_mem_nil

theorem silent_throw (e : Error) : (throw e : Action σ α).Silent := fun _ _ => List.not_mem_nil

theorem silent_get : (get : Action σ σ).Silent := fun _ _ => List.not_mem_nil

theorem silent_modify (f : σ → σ) : (modify f : Action σ Unit).Silent := fun _ _ => List.not_mem_nil

theorem silent_modifyGet (f : σ → α × σ) : (modifyGet f : Action σ α).Silent :=
  fun _ _ => List.not_mem_nil

theorem silent_read (see : σ → Except Error α) : (read see).Silent := fun _ _ => List.not_mem_nil

theorem silent_resume (result : Except Error α) : (resume result : Action σ α).Silent :=
  fun _ _ => List.not_mem_nil

theorem silent_change (step : σ → Except Error σ) : (change step).Silent := by
  intro s progress
  unfold change
  cases step s <;> exact List.not_mem_nil

theorem silent_emit {event : Event} (other : ∀ progress, event ≠ .progressed progress) :
    (emit event : Action σ Unit).Silent :=
  fun _ progress member => other progress (List.mem_singleton.1 member).symm

/-- The events of a chain are those of its first action and then those of its second one. -/
theorem mem_events_bind {next : α → Action σ β} {s : σ} {event : Event}
    (member : event ∈ ((act >>= next) s).events) : event ∈ (act s).events ∨
      ∃ a, event ∈ (next a (act s).state).events ∧
        ((act >>= next) s).state = (next a (act s).state).state := by
  change event ∈ ((act s).andThen next).events at member
  change _ ∨ ∃ a, _ ∧ ((act s).andThen next).state = _
  generalize act s = outcome at member ⊢
  obtain ⟨result, reached, events⟩ := outcome
  cases result with
  | error e => exact .inl member
  | ok a => exact (List.mem_append.1 member).imp_right fun later => ⟨a, later, rfl⟩

namespace Silent

theorem bind {next : α → Action σ β} (silent : act.Silent) (after : ∀ a, (next a).Silent) :
    (act >>= next).Silent := by
  intro s progress member
  obtain first | ⟨a, later, _⟩ := mem_events_bind member
  · exact silent s progress first
  · exact after a _ progress later

theorem run {part : Part τ σ} (silent : act.Silent) : (part.run act).Silent :=
  fun t => silent (part.get t)

theorem forM {f : β → Action σ PUnit} (silent : ∀ b, (f b).Silent) (items : List β) :
    (items.forM f).Silent := by
  induction items with
  | nil => exact silent_pure _
  | cons item rest ih => exact (silent item).bind fun _ => ih

theorem reports (silent : act.Silent) : act.Reports look :=
  fun s progress member => absurd member (silent s progress)

theorem bind_reports {next : α → Action σ β} (silent : act.Silent)
    (after : ∀ a, (next a).Reports look) : (act >>= next).Reports look := by
  intro s progress member
  obtain first | ⟨a, later, ended⟩ := mem_events_bind member
  · exact absurd first (silent s progress)
  · rw [ended]
    exact after a _ progress later

end Silent

theorem Reports.bind_pure (reports : act.Reports look) (b : β) :
    (act >>= fun _ => pure b).Reports look := by
  intro s progress member
  change _ ∈ ((act s).andThen fun _ => pure b).events at member
  change _ = look ((act s).andThen fun _ => pure b).state
  have reported := reports s progress
  generalize act s = outcome at member reported ⊢
  obtain ⟨result, reached, events⟩ := outcome
  cases result with
  | error e => exact reported member
  | ok a => exact reported ((List.mem_append.1 member).resolve_right List.not_mem_nil)

end Action

/-! ### Operations on the tree -/

namespace Tree

open BranchCutPrice.Action

theorem releasePayload_silent (payload : Payload) : (releasePayload payload).Silent := by
  unfold releasePayload
  apply (Silent.forM (fun _ => silent_change _) _).bind
  intro _
  exact Silent.forM (fun _ => silent_change _) _

theorem detach_silent (id : NodeId) : (detach id).Silent := by
  have taken : (take id).Silent := by
    unfold take
    apply (silent_read _).bind
    intro node
    exact (silent_modify _).bind fun _ => silent_pure _
  unfold detach
  apply taken.bind
  intro node
  exact (silent_modify _).bind fun _ => silent_pure _

theorem releaseChild_silent (id : NodeId) : (releaseChild id).Silent := by
  unfold releaseChild
  apply (silent_read _).bind
  intro node
  apply (silent_resume _).bind
  intro payload
  exact (silent_modify _).bind fun _ => silent_pure _

theorem freeUpwards_silent (steps : Nat) (id : NodeId) : (freeUpwards steps id).Silent := by
  induction steps generalizing id with
  | zero => exact silent_throw _
  | succ steps ih =>
    unfold freeUpwards
    apply (detach_silent id).run.bind
    intro node
    apply (releasePayload_silent _).run.bind
    intro _
    apply (silent_emit (by simp)).bind
    intro _
    cases node.parent with
    | none => exact silent_pure _
    | some parent =>
      apply (releaseChild_silent parent).run.bind
      intro remaining
      split
      · exact ih parent
      · exact silent_pure _

theorem freeNode_silent (id : NodeId) : (freeNode id).Silent := by
  unfold freeNode
  apply silent_get.bind
  intro s
  apply (silent_read _).bind
  intro node
  split
  · exact silent_throw _
  · exact freeUpwards_silent _ id

theorem reload_silent (wanted : List RowId) : (reload wanted).Silent := by
  have shrunk (kept : Nat) : (Relaxation.shrinkRows kept).Silent := by
    unfold Relaxation.shrinkRows
    apply silent_get.bind
    intro lp
    exact Silent.forM (fun row => (silent_modify _).bind fun _ => silent_change _) _
  unfold reload
  apply silent_get.bind
  intro lp
  apply (shrunk _).bind
  intro _
  exact (Silent.forM (fun row => silent_change _) _).bind fun _ => silent_pure _

theorem focusOn_silent (id : NodeId) : (focusOn id).Silent := by
  unfold focusOn
  apply (silent_read _).bind
  intro wanted
  apply (silent_read _).bind
  intro basis
  apply silent_get.bind
  intro s
  apply (reload_silent wanted).run.bind
  intro edits
  apply (Silent.forM (fun basis => (silent_modify _).run) _).bind
  intro _
  apply (silent_change _).run.bind
  intro _
  apply (silent_modify _).run.bind
  intro _
  exact (silent_emit (by simp)).bind fun _ => silent_pure _

end Tree

/-! ### Sessions -/

namespace Session

open BranchCutPrice.Action

theorem reportProgress_reports : reportProgress.Reports progress := by
  intro s p member
  change Event.progressed p ∈ (emitIf s.reportDue (.progressed s.progress) s).events at member
  change p = (emitIf s.reportDue (.progressed s.progress) s).state.progress
  unfold emitIf at member ⊢
  split at member
  · rename_i due
    rw [if_pos due]
    exact Event.progressed.inj (List.mem_singleton.1 member)
  · cases member

theorem nextAmong_reports (remaining : Nat) : (nextAmong remaining).Reports progress := by
  induction remaining with
  | zero => exact (silent_pure _).reports
  | succ remaining ih =>
    unfold nextAmong
    apply Silent.bind_reports (Silent.run (silent_modifyGet _))
    intro taken
    cases taken with
    | none => exact (silent_pure _).reports
    | some id =>
      apply (silent_read _).bind_reports
      intro node
      apply silent_get.bind_reports
      intro s
      split
      · apply (Tree.freeNode_silent id).run.bind_reports
        intro _
        exact (silent_modify _).bind_reports fun _ => ih
      · apply (Tree.focusOn_silent id).run.bind_reports
        intro _
        apply (silent_modify _).bind_reports
        intro _
        exact reportProgress_reports.bind_pure _

theorem nextNode_reports : nextNode.Reports progress := by
  unfold nextNode
  apply silent_get.bind_reports
  intro s
  exact nextAmong_reports _

end Session

end BranchCutPrice
