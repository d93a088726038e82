import BranchCutPrice.Proofs.CallEdits
import BranchCutPrice.Proofs.Columns

/-!
Which rows and columns are loaded. Whatever is called, refused calls and releases of what one does
not hold among them, the row positions mirror the list of loaded rows. The set of loaded columns
holds those of the list and, beside them, the columns that a refused clearance left behind.
-/

namespace BranchCutPrice

open BranchCutPrice.Action Relaxation

/-- The objects behind the first one whose release is refused, when they are released in order. -/
def Registry.unreleased {kind : Kind} {α : Type} (registry : Registry kind α) :
    List (Handle kind) → List (Handle kind)
  | [] => []
  | handle :: rest =>
      match registry.release handle with
      | .ok (_, registry') => unreleased registry' rest
      | .error _ => rest

namespace Relaxation

variable {lp : Relaxation} {strays : List ColumnId}

/-! ### Single rows -/

theorem Mirrors.absent {positions : Std.TreeMap RowId Nat} {rows : List RowId} {row : RowId}
    (mirrors : Mirrors positions rows) : positions[row]? = none ↔ row ∉ rows := by
  rw [Option.eq_none_iff_forall_ne_some, List.mem_iff_getElem?, not_exists]
  exact forall_congr' fun i => not_congr (mirrors row i)

/-- A row is off the list even if its release is refused, and the others keep their order. -/
theorem unloadRow_erases (mirrors : Mirrors lp.rowPositions lp.loadedRows) (row : RowId) :
    (unloadRow row).Reaches lp fun lp' => lp'.loadedRows = lp.loadedRows.erase row := by
  unfold unloadRow
  rw [Reaches, ensures_bind, ensures_get]
  cases found : lp.rowPositions[row]? with
  | none => exact (List.erase_of_not_mem (mirrors.absent.1 found)).symm
  | some position =>
    obtain ⟨inside, rfl⟩ := List.getElem?_eq_some_iff.1 ((mirrors row position).1 found)
    rw [mirrors.nodup.erase_getElem position inside]
    dsimp only
    rw [ensures_bind, ensures_modify]
    exact releaseRow_rows _ _

theorem unloadRow_absent (mirrors : Mirrors lp.rowPositions lp.loadedRows) {row : RowId}
    (absent : row ∉ lp.loadedRows) :
    unloadRow row lp = ⟨.error (.invalid (.notLoaded .row row)), lp, []⟩ := by
  unfold unloadRow
  change Outcome.andThen _ ⟨.ok lp, lp, []⟩ = _
  unfold Outcome.andThen
  dsimp only
  rw [mirrors.absent.2 absent]
  rfl

/-! ### Clearances -/

/-- The columns that stay in the set when the columns are unloaded. -/
def leftBehind (lp : Relaxation) : List ColumnId :=
  match (shrinkRows 0 lp).result with
  | .ok _ =>
      let lp' := (shrinkRows 0 lp).state
      lp'.columns.unreleased lp'.loadedColumns
  | .error _ => []

theorem Rostered.of_unlisted (unlisted : lp.loadedColumns = [])
    (members : ∀ column, lp.isColumnLoaded column = true ↔ column ∈ strays) :
    lp.Rostered strays := by
  refine ⟨?_, fun column => ?_, fun column _ => ?_⟩
  · rw [unlisted]
    exact List.nodup_nil
  · rw [members, unlisted]
    simp
  · rw [unlisted]
    exact List.not_mem_nil

/-- Columns that are off the list leave the set up to the first one whose release is refused. -/
theorem forgetColumns_rostered {columns : List ColumnId} (distinct : columns.Nodup)
    (unlisted : lp.loadedColumns = [])
    (members : ∀ column, lp.isColumnLoaded column = true ↔ column ∈ columns ∨ column ∈ strays)
    (apart : ∀ column ∈ strays, column ∉ columns) :
    (columns.forM forgetColumn).Ensures lp
      (fun _ lp' => lp'.Rostered (strays ++ lp.columns.unreleased columns) ∧
        lp.columns.unreleased columns = [])
      fun _ lp' => lp'.Rostered (strays ++ lp.columns.unreleased columns) := by
  induction columns generalizing lp with
  | nil =>
    have here : lp.Rostered (strays ++ []) := .of_unlisted unlisted fun column => by
      rw [members]
      simp
    exact ⟨here, rfl⟩
  | cons column rest ih =>
    obtain ⟨fresh, distinct'⟩ := List.nodup_cons.1 distinct
    obtain ⟨unmarked, apart'⟩ : column ∉ strays ∧ ∀ other ∈ strays, other ∉ rest :=
      ⟨fun stray => apart column stray List.mem_cons_self,
        fun other stray later => apart other stray (List.mem_cons_of_mem column later)⟩
    have left (other : ColumnId) : (lp.columnSet.erase column).contains other = true ↔
        other ∈ rest ∨ other ∈ strays := by
      have before := members other
      unfold isColumnLoaded at before
      rw [Std.TreeSet.contains_erase, Bool.and_eq_true, before, bne_iff_ne, ne_eq,
        Std.LawfulEqOrd.compare_eq_iff_eq, List.mem_cons]
      constructor
      · rintro ⟨different, (same | later) | stray⟩
        · exact absurd same.symm different
        · exact .inl later
        · exact .inr stray
      · rintro (later | stray)
        · exact ⟨fun same => fresh (same ▸ later), .inl (.inr later)⟩
        · exact ⟨fun same => unmarked (same ▸ stray), .inr stray⟩
    change (forgetColumn column >>= fun _ => rest.forM forgetColumn).Ensures lp _ _
    unfold forgetColumn releaseColumn Registry.unreleased
    rw [ensures_bind, ensures_bind, ensures_modify]
    apply ensures_change.2
    dsimp only
    cases released : lp.columns.release column with
    | ok freed =>
      refine ⟨fun lp' changed => ?_, nofun⟩
      cases changed
      exact ih distinct' unlisted left apart'
    | error e =>
      refine ⟨nofun, fun _ _ => .of_unlisted unlisted fun other => ?_⟩
      unfold isColumnLoaded
      rw [left, List.mem_append, or_comm]

theorem clear_rostered (rostered : lp.Rostered strays) :
    clear.Ensures lp
      (fun _ lp' => lp'.Rostered (strays ++ lp.leftBehind) ∧ lp.leftBehind = [])
      fun _ lp' => lp'.Rostered (strays ++ lp.leftBehind) := by
  have shrinks : (shrinkRows 0).Respects (Shifted False False) := shrinkRows_shifts 0
  unfold clear
  rw [ensures_bind]
  apply (Ensures.and (shrinks lp) (ensures_ran (shrinkRows 0) lp)).imp
  · intro _ lp' done
    obtain ⟨shifted, result, rfl⟩ := done
    have before := shifted.rostered rostered
    have behind : lp.leftBehind = (shrinkRows 0 lp).state.columns.unreleased
        (shrinkRows 0 lp).state.loadedColumns := by
      unfold leftBehind
      rw [result]
    rw [behind, ensures_bind, ensures_get, ensures_bind, ensures_modify]
    exact forgetColumns_rostered before.distinct rfl before.members before.apart
  · intro e lp' refused
    obtain ⟨shifted, result, _⟩ := refused
    have behind : lp.leftBehind = [] := by
      unfold leftBehind
      rw [result]
    rw [behind, List.append_nil]
    exact shifted.rostered rostered

end Relaxation

/-! ### Calls -/

variable {ι : Type} [DecidableEq ι] [Inhabited ι]

section Shifts

variable {clears : Prop}

/-- The steps of an operation on a part of the state are steps of its relaxation. -/
theorem Action.Respects.shifts {σ τ α : Type} {look : σ → Relaxation} {look' : τ → Relaxation}
    {part : Part τ σ} {act : Action σ α}
    (shifts : act.Respects (Function.onFun (Shifted True clears) look))
    (get : ∀ t, look (part.get t) = look' t) (set : ∀ t s, look' (part.set t s) = look s) :
    (part.run act).Respects (Function.onFun (Shifted True clears) look') := by
  apply shifts.run
  intro t s shifted
  change Shifted True clears (look' t) (look' (part.set t s))
  rw [← get, set]
  exact shifted

/-- Operations on structures beside the relaxation. -/
theorem Linked.Rests.shifts {τ : Type} {s s' : Linked τ} (rests : Linked.Rests s s') :
    Function.onFun (Shifted True clears) Linked.lp s s' :=
  Shifted.mono rests False.elim False.elim

theorem Action.Respects.shifts_of_rests {υ τ α : Type} {look : τ → Relaxation}
    {part : Part τ (Linked υ)} {act : Action (Linked υ) α} (rests : act.Respects Linked.Rests)
    (get : ∀ t, (part.get t).lp = look t) (set : ∀ t s, look (part.set t s) = s.lp) :
    (part.run act).Respects (Function.onFun (Shifted True clears) look) :=
  (rests.mono fun _ _ rests => rests.shifts).shifts get set

theorem Linked.Alters.shifts {may : Set Deed} {torn turns : Prop} {s s' : Linked Tree}
    (alters : Linked.Alters may torn turns s s') :
    Function.onFun (Shifted True clears) Linked.lp s s' :=
  alters.lp.mono False.elim False.elim

end Shifts

theorem ColumnPoolCall.perform_rests (call : ColumnPoolCall) :
    call.perform.Respects Linked.Rests := by
  cases call with
  | add column => exact (ColumnPool.stock_rests _).discard
  | scan mode => exact (respects_get.bind fun _ => ColumnPool.stock_rests _).discard
  | addNew | remove | clear => exact ColumnPool.stock_rests _

theorem PricingCall.perform_rests (call : PricingCall) : call.perform.Respects Linked.Rests := by
  cases call with
  | add column reducedCost forced => exact PricingRound.add_rests column reducedCost forced
  | updateOrthogonality admitted => exact PricingRound.updateOrthogonality_rests admitted
  | selectBest quota => exact (PricingRound.selectBest_rests quota).discard
  | clear => exact PricingRound.clear_rests

/-- Whether a call unloads columns. -/
def Call.clears : Call ι → Prop
  | client call => call.clears
  | session call => call.clears
  | _ => False

def MarketCall.clears : MarketCall ι → Prop
  | world call => call.clears
  | _ => False

theorem Call.perform_shifts (call : Call ι) :
    call.perform.Respects (Function.onFun (Shifted True call.clears) World.lp) := by
  cases call with
  | client call => exact call.perform_shifts.shifts (fun _ => rfl) fun _ _ => rfl
  | tree p call =>
    have alters : call.perform.Respects (Linked.Alters call.edits True call.turns) :=
      call.perform_changes fun _ => trivial
    exact (alters.mono fun _ _ altered => altered.shifts).shifts (fun _ => rfl) fun _ _ => rfl
  | rowPool p call => exact call.perform_rests.shifts_of_rests (fun _ => rfl) fun _ _ => rfl
  | cutPool p call => exact call.perform_rests.shifts_of_rests (fun _ => rfl) fun _ _ => rfl
  | cutRound p call => exact call.perform_rests.shifts_of_rests (fun _ => rfl) fun _ _ => rfl
  | separate p q =>
    exact CutPool.separate_rests.discard.shifts_of_rests (fun _ => rfl) fun _ _ => rfl
  | applyCuts p q node limit =>
    have alters : (SeparationRound.apply node limit).Respects
        (Function.onFun (Linked.Alters ∅ False False) SeparationRound.treeBeside) :=
      SeparationRound.apply_changes node limit
    have shifts : (SeparationRound.apply node limit).Respects
        (Function.onFun (Shifted True False) Linked.lp) :=
      alters.mono fun _ _ altered => altered.shifts
    exact shifts.discard.shifts (fun _ => rfl) fun _ _ => rfl
  | session call =>
    have alters : call.perform.Respects
        (Session.Alters call.edits True call.turns call.idle call.clears) :=
      call.perform_changes fun _ => trivial
    have shifts : call.perform.Respects (Function.onFun (Shifted True call.clears) Session.lp) :=
      alters.mono fun _ _ altered => altered.lp
    exact shifts.shifts (fun _ => rfl) fun _ _ => rfl

theorem MarketCall.perform_shifts (call : MarketCall ι) :
    call.perform.Respects (Function.onFun (Shifted True call.clears) fun m => m.world.lp) := by
  cases call with
  | world call => exact call.perform_shifts.shifts (fun _ => rfl) fun _ _ => rfl
  | pool p call =>
    have rests : (columnStock.run call.perform).Respects Linked.Rests :=
      respects_apart _ fun _ _ => .beside ⟨rfl, rfl, rfl, rfl⟩ ⟨rfl, rfl, rfl, rfl, rfl⟩
    exact rests.shifts_of_rests (fun _ => rfl) fun _ _ => rfl
  | columnPool p call => exact call.perform_rests.shifts_of_rests (fun _ => rfl) fun _ _ => rfl
  | round p call => exact call.perform_rests.shifts_of_rests (fun _ => rfl) fun _ _ => rfl
  | price p q mode =>
    exact (ColumnPool.price_rests mode).discard.shifts_of_rests (fun _ => rfl) fun _ _ => rfl

/-! ### Columns left behind by a call -/

/-- The columns that a call leaves behind in the set of loaded columns. -/
def ClientCall.strays (lp : Relaxation) : ClientCall → List ColumnId
  | clear => lp.leftBehind
  | _ => []

/-- A session clears its relaxation last. -/
def SessionCall.strays (s : Session) : SessionCall → List ColumnId
  | clear =>
      match (Session.strip s).result with
      | .ok _ => (Session.strip s).state.lp.leftBehind
      | .error _ => []
  | _ => []

def MarketCall.strays (m : Market ι) : MarketCall ι → List ColumnId
  | world (.client call) => call.strays m.world.lp
  | world (.session call) => call.strays m.world.session
  | _ => []

theorem SessionCall.clear_rostered {s : Session} {strays : List ColumnId}
    (rostered : s.lp.Rostered strays) :
    clear.perform.Ensures s
      (fun _ s' => s'.lp.Rostered (strays ++ clear.strays s) ∧ clear.strays s = [])
      fun _ s' => s'.lp.Rostered (strays ++ clear.strays s) := by
  have strips : Session.strip.Respects (Session.Alters {.fell} True False False False) :=
    Session.strip_changes (Set.mem_singleton _) trivial not_false
  change Session.clear.Ensures s _ _
  rw [Session.clear_eq, ensures_bind]
  apply (Ensures.and (strips s) (ensures_ran Session.strip s)).imp
  · intro _ s' done
    obtain ⟨altered, result, rfl⟩ := done
    have behind : clear.strays s = (Session.strip s).state.lp.leftBehind := by
      unfold SessionCall.strays
      rw [result]
    rw [behind]
    exact ensures_run.2 (Relaxation.clear_rostered (altered.lp.rostered rostered))
  · intro e s' refused
    obtain ⟨altered, result, _⟩ := refused
    have behind : clear.strays s = [] := by
      unfold SessionCall.strays
      rw [result]
    rw [behind, List.append_nil]
    exact altered.lp.rostered rostered

namespace MarketCall

omit [DecidableEq ι] [Inhabited ι] in
theorem eq_of_clears {call : MarketCall ι} (clears : call.clears) :
    call = .world (.client .clear) ∨ call = .world (.session .clear) := by
  cases call with
  | world call =>
    cases call with
    | client call =>
      cases call with
      | clear => exact .inl rfl
      | _ => exact clears.elim
    | session call =>
      cases call with
      | clear => exact .inr rfl
      | _ => exact clears.elim
    | _ => exact clears.elim
  | _ => exact clears.elim

omit [DecidableEq ι] in
theorem strays_of_spares {m : Market ι} {call : MarketCall ι} (spares : ¬call.clears) :
    call.strays m = [] := by
  cases call with
  | world call =>
    cases call with
    | client call =>
      cases call with
      | clear => exact absurd trivial spares
      | _ => rfl
    | session call =>
      cases call with
      | clear => exact absurd trivial spares
      | _ => rfl
    | _ => rfl
  | _ => rfl

/-- Only a refused clearance leaves columns behind. -/
theorem perform_rostered {m : Market ι} {strays : List ColumnId} (call : MarketCall ι)
    (rostered : m.world.lp.Rostered strays) :
    call.perform.Ensures m
      (fun _ m' => m'.world.lp.Rostered (strays ++ call.strays m) ∧ call.strays m = [])
      fun _ m' => m'.world.lp.Rostered (strays ++ call.strays m) := by
  by_cases clears : call.clears
  · obtain rfl | rfl := eq_of_clears clears
    · exact Relaxation.clear_rostered rostered
    · exact SessionCall.clear_rostered rostered
  · rw [strays_of_spares clears, List.append_nil]
    apply (call.perform_shifts m).imp
    · intro _ m' shifted
      exact ⟨(shifted.mono id clears).rostered rostered, rfl⟩
    · intro _ m' shifted
      exact (shifted.mono id clears).rostered rostered

end MarketCall

/-! ### Runs -/

namespace Market

/-- What any calls on a fresh market lead to, whatever they release and whether they are refused,
and the columns that they left behind on the way. -/
inductive Attained : Market ι → List ColumnId → Prop where
  | fresh {m : Market ι} : m.Fresh → Attained m []
  | step {m : Market ι} {strays : List ColumnId} (call : MarketCall ι) :
      Attained m strays → Attained (call.perform m).state (strays ++ call.strays m)

variable {m : Market ι} {strays : List ColumnId}

theorem Attained.mirrors (attained : m.Attained strays) :
    Mirrors m.world.lp.rowPositions m.world.lp.loadedRows := by
  induction attained with
  | fresh fresh =>
    rw [fresh.world.lp]
    exact .empty
  | step call _ ih => exact (reaches_iff.1 (call.perform_shifts _)).mirrors ih

theorem Attained.rostered (attained : m.Attained strays) : m.world.lp.Rostered strays := by
  induction attained with
  | fresh fresh =>
    rw [fresh.world.lp]
    exact .empty
  | step call _ ih =>
    exact reaches_iff.1 ((call.perform_rostered ih).imp (fun _ _ done => done.1)
      fun _ _ rostered => rostered)

/-- The columns that some calls leave behind. -/
def left (m : Market ι) : List (MarketCall ι) → List ColumnId
  | [] => []
  | call :: rest => call.strays m ++ left (call.perform m).state rest

theorem Attained.after (attained : m.Attained strays) (calls : List (MarketCall ι)) :
    (m.after calls).Attained (strays ++ m.left calls) := by
  induction calls generalizing m strays with
  | nil =>
    rw [left, List.append_nil]
    exact attained
  | cons call rest ih =>
    rw [left, ← List.append_assoc]
    exact ih (attained.step call)

end Market

/-- Whatever is called, the row positions are those of the loaded rows, each of which is listed
once. So a row counts as loaded if it is listed, its position is one of the list, unloading it
takes just this row off the list, even if its release is refused, and a list that is cut short
keeps its first rows. -/
theorem rows_mirrored {m : Market ι} {strays : List ColumnId} (attained : m.Attained strays) :
    let lp := m.world.lp
    lp.loadedRows.Nodup ∧
    (∀ (row : RowId) (i : Nat), lp.rowPositions[row]? = some i ↔ lp.loadedRows[i]? = some row) ∧
    (∀ row, lp.isRowLoaded row = true ↔ row ∈ lp.loadedRows) ∧
    (∀ (row : RowId) (i : Nat), lp.rowPositions[row]? = some i → i < lp.loadedRows.length) ∧
    (∀ row, (unloadRow row lp).state.loadedRows = lp.loadedRows.erase row ∧
      (row ∉ lp.loadedRows →
        unloadRow row lp = ⟨.error (.invalid (.notLoaded .row row)), lp, []⟩)) ∧
    ∀ length, (shrinkRows length lp).result = .ok () →
      (shrinkRows length lp).state.loadedRows = lp.loadedRows.take length := by
  intro lp
  have mirrors : Mirrors lp.rowPositions lp.loadedRows := attained.mirrors
  refine ⟨mirrors.nodup, mirrors, fun _ => mirrors.contains_iff, fun row i found => ?_,
    fun row => ⟨reaches_iff.1 (unloadRow_erases mirrors row), unloadRow_absent mirrors⟩,
    fun length unloaded => yields_iff.1 (shrinkRows_rows lp length) () unloaded⟩
  exact (List.getElem?_eq_some_iff.1 ((mirrors row i).1 found)).1

/-- Three rows are loaded. The first one is released once more than it was captured. -/
def overreleasing : List (MarketCall Unit) :=
  let row (name : String) : MarketCall Unit :=
    .world (.client (.createRow ⟨name, ⟨1, []⟩, 0, 1, false⟩))
  let load (row : RowId) : MarketCall Unit := .world (.client (.loadRow row))
  let release (row : RowId) : MarketCall Unit := .world (.client (.releaseRow row))
  [row "a", row "b", row "c", load ⟨0, 0⟩, load ⟨1, 0⟩, load ⟨2, 0⟩, release ⟨0, 0⟩,
    release ⟨0, 0⟩]

/-- A row that is gone is refused when it is unloaded, but it is off the list. -/
theorem rows_mirrored_overreleased :
    let m := Market.initial.after overreleasing
    let row : RowId := ⟨0, 0⟩
    m.Attained [] ∧ (unloadRow row m.world.lp).result = .error row.stale ∧
      (unloadRow row m.world.lp).state.loadedRows = [⟨1, 0⟩, ⟨2, 0⟩] := by
  intro m row
  have attained : m.Attained [] := (Market.Attained.fresh Market.initial_fresh).after overreleasing
  have erased := ((rows_mirrored attained).2.2.2.2.1 row).1
  have loaded : m.world.lp.loadedRows = [⟨0, 0⟩, ⟨1, 0⟩, ⟨2, 0⟩] := by decide +kernel
  rw [loaded] at erased
  exact ⟨attained, by decide +kernel, erased⟩

/-- Whatever is called, each loaded column is listed once, and the set of loaded columns holds the
listed ones and those that clearances left behind, which are not listed. A call that is not
refused leaves none behind. -/
theorem columns_mirrored {m : Market ι} {strays : List ColumnId} (attained : m.Attained strays) :
    let lp := m.world.lp
    lp.loadedColumns.Nodup ∧
    (∀ column, lp.isColumnLoaded column = true ↔
      column ∈ lp.loadedColumns ∨ column ∈ strays) ∧
    (∀ column ∈ strays, column ∉ lp.loadedColumns) ∧
    ∀ call : MarketCall ι, (call.perform m).result = .ok () → call.strays m = [] := by
  intro lp
  have rostered : lp.Rostered strays := attained.rostered
  refine ⟨rostered.distinct, rostered.members, rostered.apart, fun call performed => ?_⟩
  exact (ensures_of_ok performed (call.perform_rostered rostered)).2

/-- Two columns are loaded. The first one is released once more than it was captured, so that a
clearance stops at it. -/
def stalling : List (MarketCall Unit) :=
  let column (name : String) : MarketCall Unit :=
    .world (.client (.createColumn ⟨name, 0, 0, 1, ⟨1, []⟩, false⟩))
  let load (column : ColumnId) : MarketCall Unit := .world (.client (.loadColumn column))
  let release : MarketCall Unit := .world (.client (.releaseColumn ⟨0, 0⟩))
  [column "a", column "b", load ⟨0, 0⟩, load ⟨1, 0⟩, release, release, .world (.client .clear)]

theorem columns_mirrored_stalling :
    let m := Market.initial.after stalling
    m.Attained [⟨1, 0⟩] ∧ ∀ column, m.world.lp.isColumnLoaded column = true ↔
      column ∈ m.world.lp.loadedColumns ∨ column = ⟨1, 0⟩ := by
  intro m
  have attained : m.Attained (Market.initial.left stalling) :=
    (Market.Attained.fresh Market.initial_fresh).after stalling
  have stray : Market.initial.left stalling = [⟨1, 0⟩] := by decide +kernel
  rw [stray] at attained
  refine ⟨attained, fun column => ?_⟩
  simpa only [List.mem_singleton] using (columns_mirrored attained).2.1 column

/-- The column behind the one whose release is refused is loaded but not listed. -/
theorem column_left_behind : ∃ strays, (Market.initial.after stalling).Attained strays ∧
    (Market.initial.after stalling).world.lp.loadedColumns = [] ∧
    (Market.initial.after stalling).world.lp.isColumnLoaded ⟨1, 0⟩ = true :=
  ⟨_, (Market.Attained.fresh Market.initial_fresh).after stalling, by decide +kernel⟩

end BranchCutPrice
