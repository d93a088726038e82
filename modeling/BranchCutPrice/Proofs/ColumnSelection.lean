import BranchCutPrice.Proofs.Columns
import BranchCutPrice.Proofs.Quotes
import BranchCutPrice.Proofs.Retention

/-!
What a pricing round admits. The forced columns that are not loaded are admitted in order. Then the
best waiting column is admitted again and again, by the scores that the columns have beside all that
were admitted before, until there is no place or no column left. Loaded columns take no place.
-/

namespace BranchCutPrice

open BranchCutPrice.Action
open PricedColumn (current Ordered)

/-! ### Greedy choices -/

section Greedy

variable {objects : ColumnId → Column} {settings : PricingSettings}
  {loaded admitted : List ColumnId} {quota : Nat} {listed chosen : List PricedColumn}
  {stages : List (List PricedColumn)}

/-- The columns that are chosen from a list beside loaded and admitted ones. The stages are the
lists to choose from, with the marks that the columns have by then; the last one is what is left. -/
inductive Greedy (objects : ColumnId → Column) (settings : PricingSettings)
    (loaded : List ColumnId) : (admitted : List ColumnId) → (quota : Nat) →
    (listed : List PricedColumn) → (stages : List (List PricedColumn)) →
    (chosen : List PricedColumn) → Prop where
  /-- There is no place left. -/
  | full {admitted : List ColumnId} {listed : List PricedColumn} :
      Greedy objects settings loaded admitted 0 listed
        [listed.map (current objects settings admitted)] []
  /-- There is no column left. -/
  | exhausted {admitted : List ColumnId} {quota : Nat} :
      Greedy objects settings loaded admitted quota [] [[]] []
  /-- The best column is loaded already. -/
  | skip {admitted : List ColumnId} {quota : Nat} {best : PricedColumn}
      {rest chosen : List PricedColumn} {stages : List (List PricedColumn)} :
      best.column ∈ loaded ++ admitted →
      Greedy objects settings loaded admitted (quota + 1) rest stages chosen →
      Greedy objects settings loaded admitted (quota + 1) (best :: rest)
        ((best :: rest).map (current objects settings admitted) :: stages) chosen
  /-- The best column is admitted, and the others are listed anew. -/
  | pick {admitted : List ColumnId} {quota : Nat} {best : PricedColumn}
      {rest listed chosen : List PricedColumn} {stages : List (List PricedColumn)} :
      best.column ∉ loaded ++ admitted → listed.Perm rest →
      Ordered (listed.map (current objects settings (admitted ++ [best.column]))) →
      Greedy objects settings loaded (admitted ++ [best.column]) quota listed stages chosen →
      Greedy objects settings loaded admitted (quota + 1) (best :: rest)
        ((best :: rest).map (current objects settings admitted) :: stages)
        (best.current objects settings admitted :: chosen)

namespace Greedy

theorem length_le (greedy : Greedy objects settings loaded admitted quota listed stages chosen) :
    chosen.length ≤ quota := by
  induction greedy with
  | full | exhausted => exact Nat.zero_le _
  | skip _ _ ih => exact ih
  | pick _ _ _ _ ih => exact Nat.succ_le_succ ih

/-- At every stage the best columns come first, so that the best one is looked at. -/
theorem ordered (greedy : Greedy objects settings loaded admitted quota listed stages chosen)
    (start : Ordered (listed.map (current objects settings admitted)))
    (defined : ∀ stage ∈ stages, ∀ priced ∈ stage, priced.score.isNaN = false) :
    ∀ stage ∈ stages, stage.Pairwise fun better worse => worse.score ≤ better.score := by
  induction greedy with
  | full =>
    rw [List.forall_mem_singleton] at defined ⊢
    exact start defined
  | exhausted => exact List.forall_mem_singleton.2 .nil
  | skip _ _ ih =>
    obtain ⟨here, later⟩ := List.forall_mem_cons.1 defined
    have rest := start.tail (List.forall_mem_cons.1 here).1
    exact List.forall_mem_cons.2 ⟨start here, ih rest later⟩
  | pick _ _ anew _ ih =>
    obtain ⟨here, later⟩ := List.forall_mem_cons.1 defined
    exact List.forall_mem_cons.2 ⟨start here, ih anew later⟩

end Greedy

end Greedy

theorem Relaxation.loadColumn_get (lp : Relaxation) (column : ColumnId) :
    (loadColumn column).Yields lp fun _ lp' =>
      ∀ other, lp'.columns.get other = lp.columns.get other := by
  unfold loadColumn
  apply yields_change.2
  intro lp' changed
  split at changed
  · cases changed
  · cases captured : lp.columns.capture column with
    | error e => simp [captured, bind, Except.bind] at changed
    | ok columns =>
      rw [captured] at changed
      cases changed
      exact fun other => (Registry.get_capture captured other).1

namespace PricingRound

variable {objects : ColumnId → Column} {s s' : Linked PricingRound} {owed : Holdings}
  {admitted loaded : List ColumnId} {listed : List PricedColumn}

/-! ### One admission -/

/-- The waiting columns have the marks that they have beside the admitted ones. -/
structure Abreast (objects : ColumnId → Column) (owed : Holdings) (admitted : List ColumnId)
    (listed : List PricedColumn) (s : Linked PricingRound) : Prop where
  settled : Settled s owed
  shown : ∀ column ∈ s.own.columns, s.lp.columns.get column = .ok (objects column)
  waiting : s.own.waiting = listed.map (current objects s.own.settings admitted)

theorem besideAll_shown (settings : PricingSettings) {registry : Registry .column Column}
    {waiting : List PricedColumn}
    (shown : ∀ priced ∈ waiting, registry.get priced.column = .ok (objects priced.column))
    (admitted : Column) : besideAll settings registry admitted waiting =
      (.ok (), waiting.map fun priced =>
        priced.beside settings (admitted.orthogonality (objects priced.column))) := by
  induction waiting with
  | nil => rfl
  | cons priced rest ih =>
    obtain ⟨here, later⟩ := List.forall_mem_cons.1 shown
    rw [besideAll, here]
    dsimp only
    rw [ih later]
    rfl

/-- An admission is accounted for in all waiting columns, and they are sorted by their new scores. -/
theorem Abreast.update (abreast : Abreast objects owed admitted listed s) {handle : ColumnId}
    (stored : handle ∈ s.own.columns) : (updateOrthogonality handle).Completes s fun _ s' =>
      ∃ listed', listed'.Perm listed ∧ Abreast objects owed (admitted ++ [handle]) listed' s' ∧
        Ordered s'.own.waiting ∧ s' = ⟨{ s.own with waiting := s'.own.waiting }, s.lp⟩ := by
  let marks := current objects s.own.settings (admitted ++ [handle])
  have rescored : besideAll s.own.settings s.lp.columns (objects handle) s.own.waiting =
      (.ok (), listed.map marks) := by
    rw [besideAll_shown s.own.settings fun _ waits => abreast.shown _ (waiting_stored waits),
      abreast.waiting, List.map_map]
    congr 2
    funext priced
    exact PricedColumn.current_beside objects s.own.settings admitted handle priced
  have updates : (updateOrthogonality handle).Completes s fun _ s' =>
      s' = ⟨{ s.own with waiting := Ranking.sort PricedColumn.before (listed.map marks) }, s.lp⟩ := by
    unfold updateOrthogonality
    rw [Completes, ensures_bind, ensures_get]
    apply Completes.of_read (a := objects handle)
    · exact abreast.shown handle stored
    · rw [rescored]
      rfl
  apply (updates.also (updateOrthogonality_strands abreast.settled handle)).mono
  rintro _ s' ⟨same, strands⟩
  have columns : (s'.own.columns : Multiset ColumnId) = s.own.columns := by
    rw [← strands.columns, zero_add]
  subst same
  refine ⟨_, Ranking.sort_perm (fun a b => PricedColumn.before (marks a) (marks b)) listed,
    ⟨strands.kept, fun column member => ?_, Ranking.sort_map marks listed⟩,
    PricedColumn.sort_before _, rfl⟩
  apply abreast.shown
  rwa [← Multiset.mem_coe, ← columns]

theorem Abreast.load (abreast : Abreast objects owed admitted listed s) {column : ColumnId}
    (stored : column ∈ s.own.columns) (unloaded : ¬s.lp.isColumnLoaded column = true) :
    (Relaxation.loadColumn column).Completes s.lp fun _ lp' =>
      Abreast objects owed admitted listed ⟨s.own, lp'⟩ ∧
        lp'.loadedColumns = s.lp.loadedColumns ++ [column] := by
  have loads := loadColumn_completes abreast.settled (live abreast.settled stored) unloaded
  apply (loads.also (Relaxation.loadColumn_get s.lp column)).mono
  rintro _ lp' ⟨⟨settled, _, loaded⟩, same⟩
  refine ⟨⟨settled, fun other member => ?_, abreast.waiting⟩, loaded⟩
  exact (same other).trans (abreast.shown other member)

/-! ### Forced columns -/

/-- The columns among some that are not loaded yet. -/
def entering (loaded : List ColumnId) (columns : List PricedColumn) : List ColumnId :=
  (columns.map PricedColumn.column).filter (!loaded.contains ·)

/-- Some columns were admitted, and nothing but the order and the marks of the waiting columns
changed in the round. -/
structure Advances (objects : ColumnId → Column) (owed : Holdings) (admitted : List ColumnId)
    (listed : List PricedColumn) (s : Linked PricingRound) (new : List ColumnId)
    (s' : Linked PricingRound) : Prop where
  abreast : ∃ listed', listed'.Perm listed ∧ Abreast objects owed (admitted ++ new) listed' s'
  ordered : Ordered s'.own.waiting
  loaded : s'.lp.loadedColumns = s.lp.loadedColumns ++ new
  own : s'.own = { s.own with waiting := s'.own.waiting }

theorem Advances.refl (abreast : Abreast objects owed admitted listed s)
    (ordered : Ordered s.own.waiting) : Advances objects owed admitted listed s [] s where
  abreast := ⟨listed, .rfl, by rwa [List.append_nil]⟩
  ordered := ordered
  loaded := (List.append_nil _).symm
  own := rfl

theorem Advances.cons {listed' : List PricedColumn} {column : ColumnId} {new : List ColumnId}
    {s'' : Linked PricingRound} (reordered : listed'.Perm listed)
    (own : s'.own = { s.own with waiting := s'.own.waiting })
    (loaded : s'.lp.loadedColumns = s.lp.loadedColumns ++ [column])
    (advances : Advances objects owed (admitted ++ [column]) listed' s' new s'') :
    Advances objects owed admitted listed s (column :: new) s'' where
  abreast := by
    obtain ⟨listed'', reordered', abreast⟩ := advances.abreast
    refine ⟨listed'', reordered'.trans reordered, ?_⟩
    rwa [List.append_assoc] at abreast
  ordered := advances.ordered
  loaded := by
    rw [advances.loaded, loaded, List.append_assoc]
    rfl
  own := by
    rw [advances.own, own]

theorem admitForced_advances (abreast : Abreast objects owed admitted listed s)
    (ordered : Ordered s.own.waiting) {forced : List PricedColumn}
    (stored : ∀ priced ∈ forced, priced ∈ s.own.forced)
    (distinct : (forced.map PricedColumn.column).Nodup) :
    (admitForced forced).Completes s fun count s' =>
      Advances objects owed admitted listed s (entering s.lp.loadedColumns forced) s' ∧
        count = (entering s.lp.loadedColumns forced).length := by
  induction forced generalizing s admitted listed with
  | nil => exact ⟨.refl abreast ordered, rfl⟩
  | cons priced rest ih =>
    have balanced : s.lp.Balanced (owed + Holder.holdings s.own) := abreast.settled
    obtain ⟨here, later⟩ := List.forall_mem_cons.1 stored
    obtain ⟨absent, distinct'⟩ := List.nodup_cons.1 distinct
    unfold admitForced
    rw [Completes, ensures_bind, ensures_get]
    split
    · rename_i already
      have member := (balanced.isColumnLoaded_iff priced.column).1 already
      have passed : entering s.lp.loadedColumns (priced :: rest) =
          entering s.lp.loadedColumns rest := List.filter_cons_of_neg (by simpa using member)
      rw [passed]
      exact ih abreast ordered later distinct'
    · rename_i unloaded
      have column := forced_stored here
      have fresh := mt (balanced.isColumnLoaded_iff priced.column).2 unloaded
      have entered : entering s.lp.loadedColumns (priced :: rest) =
          priced.column :: entering (s.lp.loadedColumns ++ [priced.column]) rest := by
        refine (List.filter_cons_of_pos (by simpa using fresh)).trans (congrArg (_ :: ·) ?_)
        apply List.filter_congr
        intro other member
        have different : other ≠ priced.column := fun same => absent (same ▸ member)
        simp [different]
      rw [entered, ensures_bind, ensures_onLp]
      apply (abreast.load column unloaded).mono
      rintro _ lp' ⟨loads, loaded⟩
      apply (loads.update column).bind
      rintro _ s' ⟨listed', reordered, abreast', ordered', same⟩
      have own : s'.own = { s.own with waiting := s'.own.waiting } := congrArg Linked.own same
      have loaded' : s'.lp.loadedColumns = s.lp.loadedColumns ++ [priced.column] := by
        rw [congrArg Linked.lp same, loaded]
      have stored' : ∀ other ∈ rest, other ∈ s'.own.forced := by
        rw [own]
        exact later
      have continues := ih abreast' ordered' stored' distinct'
      rw [loaded'] at continues
      apply continues.bind
      rintro count s'' ⟨advances, rfl⟩
      exact ⟨advances.cons reordered own loaded', rfl⟩

/-! ### Waiting columns -/

section Waiting

variable {fresh : PricedColumn} {others : List PricedColumn}

/-- The best column leaves the round if it is loaded already. -/
theorem Abreast.drop (abreast : Abreast objects owed admitted (fresh :: others) s)
    (loaded : s.lp.isColumnLoaded fresh.column = true) :
    Abreast objects (owed + .ofColumns {fresh.column}) admitted others
      ⟨{ s.own with waiting := others.map (current objects s.own.settings admitted) }, s.lp⟩ := by
  have dropping := drop_strands abreast.settled abreast.waiting loaded
  refine ⟨dropping.settled, fun column member => ?_, rfl⟩
  apply abreast.shown
  rw [← Multiset.mem_coe, ← dropping.columns]
  exact Multiset.mem_add.2 (.inr member)

/-- The best column is selected. -/
theorem Abreast.choose (abreast : Abreast objects owed admitted (fresh :: others) s) :
    Abreast objects owed admitted others
      ⟨choose (fresh.current objects s.own.settings admitted)
        (others.map (current objects s.own.settings admitted)) s.own, s.lp⟩ := by
  have same := columns_choose s.own abreast.waiting
  refine ⟨abreast.settled.congr (congrArg Holdings.ofColumns same), fun column member => ?_, rfl⟩
  apply abreast.shown
  rw [← Multiset.mem_coe, ← same]
  exact member

/-- The best column is loaded and selected, and the others are listed anew. -/
theorem Abreast.select (abreast : Abreast objects owed admitted (fresh :: others) s)
    (unloaded : ¬s.lp.isColumnLoaded fresh.column = true) :
    (admitBest (fresh.current objects s.own.settings admitted)).Completes
      ⟨{ s.own with waiting := others.map (current objects s.own.settings admitted) }, s.lp⟩
      fun _ t => ∃ listed', listed'.Perm others ∧
        Abreast objects owed (admitted ++ [fresh.column]) listed' t ∧ Ordered t.own.waiting ∧
        t.own = { PricingRound.choose (fresh.current objects s.own.settings admitted)
          (others.map (current objects s.own.settings admitted)) s.own with
          waiting := t.own.waiting } ∧
        t.lp.loadedColumns = s.lp.loadedColumns ++ [fresh.column] := by
  have stored := mem_choose (fresh.current objects s.own.settings admitted)
    (others.map (current objects s.own.settings admitted)) s.own
  unfold admitBest
  rw [Completes, ensures_bind, ensures_emit, ensures_bind, ensures_onLp]
  apply (abreast.choose.load stored unloaded).mono
  rintro _ lp' ⟨loads, loaded⟩
  rw [ensures_bind, ensures_onOwn, ensures_modify]
  apply (loads.update stored).mono
  rintro _ t ⟨listed', reordered, abreast', ordered, same⟩
  refine ⟨listed', reordered, abreast', ordered, congrArg Linked.own same, ?_⟩
  rw [congrArg Linked.lp same]
  exact loaded

end Waiting

/-- A greedy choice on the way from one state to another. What is left waits in the end. -/
structure Pursues (objects : ColumnId → Column) (loaded admitted : List ColumnId) (quota : Nat)
    (listed : List PricedColumn) (s : Linked PricingRound) (stages : List (List PricedColumn))
    (chosen : List PricedColumn) (s' : Linked PricingRound) : Prop where
  greedy : Greedy objects s.own.settings loaded admitted quota listed stages chosen
  left : stages.getLast? = some s'.own.waiting
  selected : s'.own.selected = s.own.selected ++ chosen
  settings : s'.own.settings = s.own.settings
  loads : s'.lp.loadedColumns = s.lp.loadedColumns ++ chosen.map PricedColumn.column

namespace Pursues

variable {quota : Nat} {chosen : List PricedColumn} {stages : List (List PricedColumn)}

theorem full (abreast : Abreast objects owed admitted listed s) :
    Pursues objects loaded admitted 0 listed s
      [listed.map (current objects s.own.settings admitted)] [] s :=
  ⟨.full, congrArg some abreast.waiting.symm, (List.append_nil _).symm, rfl,
    (List.append_nil _).symm⟩

theorem exhausted (abreast : Abreast objects owed admitted [] s) :
    Pursues objects loaded admitted quota [] s [[]] [] s :=
  ⟨.exhausted, congrArg some abreast.waiting.symm, (List.append_nil _).symm, rfl,
    (List.append_nil _).symm⟩

theorem skip {fresh : PricedColumn} {others waiting : List PricedColumn}
    (member : fresh.column ∈ loaded ++ admitted)
    (pursues : Pursues objects loaded admitted (quota + 1) others
      ⟨{ s.own with waiting := waiting }, s.lp⟩ stages chosen s') :
    Pursues objects loaded admitted (quota + 1) (fresh :: others) s
      ((fresh :: others).map (current objects s.own.settings admitted) :: stages) chosen s' := by
  refine ⟨.skip member pursues.greedy, ?_, pursues.selected, pursues.settings, pursues.loads⟩
  rw [List.getLast?_cons, pursues.left]
  rfl

theorem pick {fresh : PricedColumn} {others : List PricedColumn} {t : Linked PricingRound}
    (absent : fresh.column ∉ loaded ++ admitted) (reordered : listed.Perm others)
    (ordered : Ordered t.own.waiting)
    (abreast : Abreast objects owed (admitted ++ [fresh.column]) listed t)
    (settings : t.own.settings = s.own.settings)
    (selected : t.own.selected =
      s.own.selected ++ [fresh.current objects s.own.settings admitted])
    (grown : t.lp.loadedColumns = s.lp.loadedColumns ++ [fresh.column])
    (pursues : Pursues objects loaded (admitted ++ [fresh.column]) quota listed t stages chosen s') :
    Pursues objects loaded admitted (quota + 1) (fresh :: others) s
      ((fresh :: others).map (current objects s.own.settings admitted) :: stages)
      (fresh.current objects s.own.settings admitted :: chosen) s' := by
  have greedy := pursues.greedy
  rw [abreast.waiting, settings] at ordered
  rw [settings] at greedy
  refine ⟨.pick absent reordered ordered greedy, ?_, ?_, pursues.settings.trans settings, ?_⟩
  · rw [List.getLast?_cons, pursues.left]
    rfl
  · rw [pursues.selected, selected, List.append_assoc]
    rfl
  · rw [pursues.loads, grown, List.append_assoc]
    rfl

end Pursues

theorem admitWaiting_pursues (abreast : Abreast objects owed admitted listed s)
    (begun : s.lp.loadedColumns = loaded ++ admitted) {steps : Nat} (enough : listed.length ≤ steps)
    (quota : Nat) : (admitWaiting steps quota).Completes s fun count s' => ∃ stages chosen,
      Pursues objects loaded admitted quota listed s stages chosen s' ∧ count = chosen.length := by
  -- every step takes one column off the list, which the marks stay abreast with
  induction steps generalizing s owed admitted listed quota with
  | zero =>
    obtain rfl := List.length_eq_zero_iff.1 (Nat.le_zero.1 enough)
    exact ⟨_, _, .exhausted abreast, rfl⟩
  | succ steps ih =>
    cases quota with
    | zero => exact ⟨_, _, .full abreast, rfl⟩
    | succ quota =>
      have balanced : s.lp.Balanced (owed + Holder.holdings s.own) := abreast.settled
      unfold admitWaiting
      rw [Completes, ensures_bind, ensures_get, abreast.waiting]
      cases listed with
      | nil => exact ⟨_, _, .exhausted abreast, rfl⟩
      | cons fresh others =>
        have fewer : others.length ≤ steps := Nat.le_of_succ_le_succ enough
        rw [List.map_cons]
        dsimp only
        rw [ensures_bind, ensures_onOwn, ensures_modify, ensures_bind, ensures_get]
        split
        · rename_i already
          have member := (balanced.isColumnLoaded_iff fresh.column).1 already
          rw [begun] at member
          apply (ih (abreast.drop already) begun fewer (quota + 1)).mono
          rintro count s' ⟨stages, chosen, pursues, counted⟩
          exact ⟨_, chosen, pursues.skip member, counted⟩
        · rename_i unloaded
          have absent := mt (balanced.isColumnLoaded_iff fresh.column).2 unloaded
          rw [begun] at absent
          apply (abreast.select unloaded).bind
          rintro _ t ⟨listed', reordered, abreast', ordered, own, grown⟩
          have begun' : t.lp.loadedColumns = loaded ++ (admitted ++ [fresh.column]) := by
            rw [grown, begun, List.append_assoc]
          apply (ih abreast' begun' (reordered.length_eq.trans_le fewer) quota).bind
          rintro _ s' ⟨stages, chosen, pursues, rfl⟩
          refine ⟨_, _, pursues.pick absent reordered ordered abreast' ?_ ?_ grown, rfl⟩
          · exact (congrArg PricingRound.settings own).trans rfl
          · exact (congrArg PricingRound.selected own).trans rfl

/-! ### The end of a round -/

/-- The forced columns that are not loaded yet. -/
def incoming (s : Linked PricingRound) : List ColumnId :=
  entering s.lp.loadedColumns s.own.forced

/-- A greedy choice among the waiting columns of a round, beside the forced ones. -/
structure Chooses (objects : ColumnId → Column) (s : Linked PricingRound) (quota : Nat)
    (listed : List PricedColumn) (stages : List (List PricedColumn)) (chosen : List PricedColumn)
    (s' : Linked PricingRound) : Prop where
  waiting : listed.Perm s.own.waiting
  greedy : Greedy objects s.own.settings s.lp.loadedColumns (incoming s) quota listed stages chosen
  /-- Unless a score is undefined, the best columns come first at every stage. -/
  ordered : (∀ stage ∈ stages, ∀ priced ∈ stage, priced.score.isNaN = false) →
    ∀ stage ∈ stages, stage.Pairwise fun better worse => worse.score ≤ better.score
  atMost : chosen.length ≤ quota
  /-- The columns that are left wait with their marks. -/
  left : stages.getLast? = some s'.own.waiting
  selected : s'.own.selected = s.own.selected ++ chosen

/-- The forced columns are loaded in order, then the chosen ones, and all of them are counted. -/
structure Admits (s : Linked PricingRound) (chosen : List PricedColumn) (result : RoundResult)
    (s' : Linked PricingRound) : Prop where
  loaded : s'.lp.loadedColumns =
    s.lp.loadedColumns ++ incoming s ++ chosen.map PricedColumn.column
  added : result.added = result.forced + chosen.length
  forced : result.forced = (incoming s).length
  efficacious : result.efficacious = s.own.efficacious

/-- What a round comes to. -/
structure Selects (objects : ColumnId → Column) (s : Linked PricingRound) (quota : Nat)
    (outcome : Outcome (Linked PricingRound) RoundResult) : Prop where
  /-- Beside admitted columns that it has defined orthogonalities to, a column has the marks that
  it should have. -/
  marked : ∀ (priced : PricedColumn) (admitted : List ColumnId),
    (∀ other ∈ admitted,
      ((objects other).orthogonality (objects priced.column)).isNaN = false) →
    PricedColumn.Marked objects s.own.settings admitted priced
      (priced.current objects s.own.settings admitted)
  admitted : ∃ listed stages chosen result, outcome.result = .ok result ∧
    Chooses objects s quota listed stages chosen (admitAll quota s).state ∧
    Admits s chosen result outcome.state
  emptied : outcome.state.own = .empty s.own.settings

theorem admitAll_chooses (abreast : Abreast objects owed [] s.own.waiting s)
    (ordered : Ordered s.own.waiting) (distinct : (s.own.forced.map PricedColumn.column).Nodup)
    (quota : Nat) : (admitAll quota).Completes s fun result s' => ∃ listed stages chosen,
      Chooses objects s quota listed stages chosen s' ∧ Admits s chosen result s' ∧
        s'.own.settings = s.own.settings := by
  unfold admitAll
  rw [Completes, ensures_bind, ensures_get]
  apply (admitForced_advances abreast ordered (fun _ stored => stored) distinct).bind
  rintro _ t ⟨advances, rfl⟩
  obtain ⟨listed, reordered, abreast'⟩ := advances.abreast
  have settings : t.own.settings = s.own.settings := by
    rw [advances.own]
  have selected : t.own.selected = s.own.selected := by
    rw [advances.own]
  have start := advances.ordered
  rw [abreast'.waiting, settings] at start
  have length : listed.length ≤ t.own.waiting.length := by
    rw [abreast'.waiting, List.length_map]
  rw [Completes, ensures_bind, ensures_get]
  apply (admitWaiting_pursues abreast' advances.loaded length quota).bind
  rintro _ s' ⟨stages, chosen, ⟨greedy, left, selected', settings', loads⟩, rfl⟩
  rw [settings] at greedy settings'
  rw [selected] at selected'
  rw [advances.loaded] at loads
  refine ⟨listed, stages, chosen, ?_, ⟨loads, rfl, rfl, rfl⟩, settings'⟩
  exact ⟨reordered, greedy, greedy.ordered start, greedy.length_le, left, selected'⟩

theorem selectBest_selects (abreast : Abreast objects owed [] s.own.waiting s)
    (ordered : Ordered s.own.waiting) (distinct : (s.own.forced.map PricedColumn.column).Nodup)
    (quota : Nat) : Selects objects s quota (selectBest quota s) := by
  have selects : (selectBest quota).Completes s fun result s' => ∃ listed stages chosen,
      Chooses objects s quota listed stages chosen (admitAll quota s).state ∧
        Admits s chosen result s' ∧ s'.own = .empty s.own.settings := by
    unfold selectBest
    rw [Completes, ensures_bind, ensures_attempt]
    have admits := ((admitAll_chooses abreast ordered distinct quota).also
      (admitAll_strands abreast.settled quota)).also (ensures_ran (admitAll quota) s)
    apply admits.imp
    · rintro result s' ⟨⟨⟨listed, stages, chosen, chooses, admits, settings⟩, strands, _⟩, _, rfl⟩
      apply Completes.bind (clear_ensures strands.settled)
      rintro _ s'' ⟨_, emptied, still⟩
      rw [Completes, ensures_bind, ensures_resume_ok, ensures_bind, ensures_emit, ensures_pure]
      rw [settings] at emptied
      have loaded := congrArg Relaxation.loadedColumns still.same
      refine ⟨listed, stages, chosen, chooses, { admits with loaded := ?_ }, emptied⟩
      rw [loaded, admits.loaded]
    · exact fun _ _ no => no.elim
  obtain ⟨result, ended, listed, stages, chosen, chooses, admits, emptied⟩ := ensures_never selects
  exact ⟨fun _ _ defined => PricedColumn.current_marked defined s.own.settings,
    ⟨listed, stages, chosen, result, ended, chooses, admits⟩, emptied⟩

/-- Columns that were handed in are admitted as they should be. -/
theorem Stocks.selects {quotes : List Quote} (stocks : Stocks quotes s.own)
    (settled : Settled s owed) (quota : Nat) : ∃ objects : ColumnId → Column,
      (∀ column ∈ s.own.columns, s.lp.columns.get column = .ok (objects column)) ∧
        Selects objects s quota (selectBest quota s) := by
  have registered (column : ColumnId) : ∃ object,
      column ∈ s.own.columns → s.lp.columns.get column = .ok object := by
    by_cases stored : column ∈ s.own.columns
    · obtain ⟨object, got⟩ := Registry.contains_iff_get.1 (live settled stored)
      exact ⟨object, fun _ => got⟩
    · exact ⟨⟨"", 0, 0, 0, ⟨0, []⟩, false⟩, fun member => absurd member stored⟩
  choose objects shown using registered
  have waiting : s.own.waiting = s.own.waiting.map (current objects s.own.settings []) :=
    ((List.map_congr_left stocks.rated_waiting).trans (List.map_id _)).symm
  have distinct : (s.own.forced.map PricedColumn.column).Nodup := by
    have nodup := stocks.nodup_columns
    unfold columns stored at nodup
    rw [List.append_assoc, List.map_append] at nodup
    exact nodup.of_append_left
  exact ⟨objects, shown, selectBest_selects ⟨settled, shown, waiting⟩ stocks.ordered distinct quota⟩

end PricingRound

/-! ### Markets -/

/-- Hands a column in to the round at a place. -/
def Quote.call {ι : Type} (quote : Quote) (p : ι) : MarketCall ι :=
  .round p (.add quote.column quote.reducedCost quote.forced)

namespace Market

variable {ι : Type} [DecidableEq ι] [Inhabited ι] {p : ι} {m : Market ι} {quotes : List Quote}

/-- A run along which columns are handed in to the empty round at a place, and what was handed
in. -/
inductive Gathers (p : ι) : Market ι → List Quote → Prop where
  | start {m : Market ι} {stranded : Multiset ColumnId} : m.Reached stranded →
      m.rounds p = .empty (m.rounds p).settings → Gathers p m []
  | add {m : Market ι} {quotes : List Quote} {quote : Quote} : Gathers p m quotes →
      m.world.lp.columns.get quote.column = .ok quote.object →
      ((quote.call p).perform m).state.world.Roomy →
      Gathers p ((quote.call p).perform m).state (quotes ++ [quote])
  | other {m : Market ι} {quotes : List Quote} {call : MarketCall ι} : Gathers p m quotes →
      call.Permitted m → (call.perform m).state.world.Roomy →
      (call.perform m).state.rounds p = m.rounds p → Gathers p (call.perform m).state quotes

namespace Gathers

theorem reached (gathers : Gathers p m quotes) : ∃ stranded, m.Reached stranded := by
  induction gathers with
  | start reached => exact ⟨_, reached⟩
  | add _ _ roomy ih =>
    obtain ⟨_, reached⟩ := ih
    exact ⟨_, reached.step _ trivial roomy⟩
  | other _ permitted roomy _ ih =>
    obtain ⟨_, reached⟩ := ih
    exact ⟨_, reached.step _ permitted roomy⟩

theorem stocks (gathers : Gathers p m quotes) : (m.rounds p).Stocks quotes := by
  induction gathers with
  | start _ none =>
    rw [none]
    exact .empty _
  | @add m quotes quote _ registered _ ih =>
    have added := PricingRound.add_stocks (s := ⟨m.rounds p, m.world.lp⟩) ih registered
    have performed : (quote.call p).perform.Completes m fun _ m' =>
        (m'.rounds p).Stocks (quotes ++ [quote]) := by
      apply ensures_run.2
      apply added.mono
      intro _ s stocks
      change (Function.update m.rounds p s.own p).Stocks _
      rw [Function.update_self]
      exact stocks
    exact reaches_iff.1 (performed.reaches fun _ _ stocks => stocks)
  | other _ _ _ same ih =>
    rw [same]
    exact ih

end Gathers

end Market

/-- Whatever columns were handed in to a round, it stores them by their scores, and it selects
greedily. -/
theorem selects_greedily {ι : Type} [Fintype ι] [DecidableEq ι] [Inhabited ι] {p : ι}
    {m : Market ι} {quotes : List Quote} (gathers : m.Gathers p quotes) (quota : Nat) :
    let s : Linked PricingRound := ⟨m.rounds p, m.world.lp⟩
    s.own.Stocks quotes ∧ ∃ objects : ColumnId → Column,
      (∀ column ∈ s.own.columns, s.lp.columns.get column = .ok (objects column)) ∧
        PricingRound.Selects objects s quota (PricingRound.selectBest quota s) := by
  obtain ⟨_, reached⟩ := gathers.reached
  obtain ⟨_, kept, _⟩ := reached.kept
  obtain ⟨_, settled⟩ := kept.round_settled (.inr ⟨p, rfl⟩)
  exact ⟨gathers.stocks, gathers.stocks.selects settled quota⟩

def Column.sample (name : String) (entries : List (Nat × Float)) : Column :=
  ⟨name, 0, 0, 1, ⟨3, entries⟩, false⟩

/-- The third one is nearly parallel to the second one, and the last one is twice as long. -/
def assortment : List Column :=
  [.sample "a" [(0, 1)], .sample "b" [(1, 1)], .sample "c" [(1, 1), (2, 0.1)], .sample "d" [(2, 1)],
    .sample "e" [(0, 2)]]

def PricingSettings.strict : PricingSettings :=
  { minOrthogonality := 0.5, orthogonalityWeight := 1 }

/-- The last column has the better reduced cost and the fourth one the better efficacy. That one
comes again as forced. -/
def quotations : List Quote :=
  [⟨⟨0, 0⟩, .sample "a" [(0, 1)], -9, false⟩,
    ⟨⟨2, 0⟩, .sample "c" [(1, 1), (2, 0.1)], -5, false⟩,
    ⟨⟨4, 0⟩, .sample "e" [(0, 2)], -4, false⟩,
    ⟨⟨3, 0⟩, .sample "d" [(2, 1)], -3, false⟩,
    ⟨⟨1, 0⟩, .sample "b" [(1, 1)], -0.5, true⟩,
    ⟨⟨3, 0⟩, .sample "d" [(2, 1)], -7, true⟩]

namespace Market

/-- The first column is loaded and the others are not. -/
def assorting : List (MarketCall Unit) :=
  assortment.map (.world <| .client <| .createColumn ·) ++
    [.world (.client (.loadColumn ⟨0, 0⟩))]

def strict : Market Unit :=
  { initial with rounds := fun _ => .empty .strict }

/-- The market after the first ones of these columns were handed in. -/
def handed (count : Nat) : Market Unit :=
  (strict.after assorting).after ((quotations.take count).map fun quote => quote.call ())

theorem handed_gathers : Gathers () (handed 6) quotations := by
  let gathered (count : Nat) : Prop := Gathers () (handed count) (quotations.take count)
  have roomy : ∀ count < 7, (handed count).world.Roomy := by
    decide +kernel
  have next {count : Nat} (small : count < 6) {quote : Quote} (gathers : gathered count)
      (registered : (handed count).world.lp.columns.get quote.column = .ok quote.object)
      (quoted : quotations.take (count + 1) = quotations.take count ++ [quote]) :
      gathered (count + 1) := by
    have called : ((quote.call ()).perform (handed count)).state = handed (count + 1) := by
      unfold handed
      rw [quoted, List.map_append]
      exact (after_concat _ _).symm
    have added := gathers.add registered (called ▸ roomy (count + 1) (by omega))
    rw [called, ← quoted] at added
    exact added
  have fresh : strict.Fresh := { initial_fresh with rounds := fun _ => ⟨.strict, rfl⟩ }
  have plays : strict.Plays assorting := by
    decide +kernel
  obtain ⟨_, reached⟩ := plays.reached (.fresh fresh)
  have start : handed 0 = strict.after assorting := by
    unfold handed
    rw [List.take_zero, List.map_nil, after_nil]
  rw [← start] at reached
  have none : gathered 0 := .start reached (by decide +kernel)
  have one : gathered 1 := next (by decide) none (by decide +kernel) rfl
  have two : gathered 2 := next (by decide) one (by decide +kernel) rfl
  have three : gathered 3 := next (by decide) two (by decide +kernel) rfl
  have four : gathered 4 := next (by decide) three (by decide +kernel) rfl
  have five : gathered 5 := next (by decide) four (by decide +kernel) rfl
  exact next (by decide) five (by decide +kernel) rfl

end Market

theorem selects_greedily_handed :
    let s : Linked PricingRound := ⟨(Market.handed 6).rounds (), (Market.handed 6).world.lp⟩
    (Market.handed 6).Gathers () quotations ∧
      s.own.waiting.map PricedColumn.efficacy = [9, 5 / (1 + 0.1 * 0.1 : Float).sqrt, 3, 2] ∧
      (PricingRound.selectBest 1 s).state.lp.loadedColumns = [⟨0, 0⟩, ⟨1, 0⟩, ⟨3, 0⟩] ∧
      s.own.Stocks quotations ∧ ∃ objects : ColumnId → Column,
        (∀ column ∈ s.own.columns, s.lp.columns.get column = .ok (objects column)) ∧
          PricingRound.Selects objects s 1 (PricingRound.selectBest 1 s) :=
  ⟨Market.handed_gathers, by decide +kernel, by decide +kernel,
    selects_greedily Market.handed_gathers 1⟩

end BranchCutPrice
