import BranchCutPrice.Linear.Column
import BranchCutPrice.Linear.Row
import BranchCutPrice.Proofs.Doubles
import BranchCutPrice.Proofs.Outcome
import BranchCutPrice.Proofs.Ranking

/-!
Rows and columns from entry lists. The order of the entries and explicit zeros do not matter,
neither to what is built nor to the error with which it is refused: sorting the nonzero entries
determines their index list, repeated indices are found in it, and where none is repeated it
determines the list of entries as well.
-/

namespace BranchCutPrice

namespace SparseVec

/-! ### What the entries must be -/

/-- The entries that count: those that are no explicit zero of either sign. -/
def nonzero (entries : List (Nat × Float)) : List (Nat × Float) :=
  entries.filter fun entry => entry.2 != 0.0

/-- The same entries in any order, with explicit zeros put in anywhere and at any index. -/
def Rearranges (entries entries' : List (Nat × Float)) : Prop :=
  ∃ zeros : List (Nat × Float), (∀ zero ∈ zeros, zero.2 = 0.0 ∨ zero.2 = -0.0) ∧
    entries'.Perm (entries ++ zeros)

/-- Entries that make a vector: the nonzero ones have different indices below the dimension
and finite values. -/
structure Admissible (dimension : Nat) (entries : List (Nat × Float)) : Prop where
  distinct : ((nonzero entries).map Prod.fst).Nodup
  inside : ∀ entry ∈ nonzero entries, entry.1 < dimension
  finite : ∀ entry ∈ nonzero entries, entry.2.isFinite = true

/-- What is asked of a constructor of sparse vectors from outside: it takes any strictly
increasing list of indices below the dimension, with as many values. -/
def TakesIncreasing (takes : Nat → List Nat → List Float → Prop) : Prop :=
  ∀ dimension indices values, indices.Pairwise (· < ·) → (∀ i ∈ indices, i < dimension) →
    indices.length = values.length → takes dimension indices values

/-- A vector in canonical form that holds exactly the nonzero ones of some entries. -/
structure Holds (vec : SparseVec) (dimension : Nat) (entries : List (Nat × Float)) : Prop where
  sized : vec.dimension = dimension
  increasing : vec.indices.Pairwise (· < ·)
  inside : ∀ i ∈ vec.indices, i < dimension
  exactly : vec.entries.Perm (nonzero entries)
  taken : ∀ takes, TakesIncreasing takes → takes dimension vec.indices vec.values

variable {owner : String} {dimension : Nat} {entries entries' : List (Nat × Float)}

theorem Rearranges.nonzero_perm (moved : Rearranges entries entries') :
    (nonzero entries').Perm (nonzero entries) := by
  obtain ⟨zeros, vanish, perm⟩ := moved
  have none : nonzero zeros = [] := by
    refine List.filter_eq_nil_iff.2 fun zero member => ?_
    obtain same | same := vanish zero member <;> rw [same] <;> decide
  calc (nonzero entries').Perm (nonzero (entries ++ zeros)) := perm.filter _
    _ = nonzero entries ++ nonzero zeros := List.filter_append _ _
    _ = nonzero entries := by rw [none, List.append_nil]

/-! ### The arranged entries -/

theorem arrange_perm (entries : List (Nat × Float)) :
    (arrange entries).Perm (nonzero entries) :=
  Ranking.sort_perm _ _

theorem arrange_ordered (entries : List (Nat × Float)) :
    ((arrange entries).map Prod.fst).Pairwise (· ≤ ·) := by
  refine List.pairwise_map.2 (Ranking.sort_pairwise ?_ ?_ ?_ _)
  · intro a b precedes
    exact (of_decide_eq_true precedes).le
  · intro a b follows
    exact Nat.le_of_not_lt (of_decide_eq_false follows)
  · intro a b c first second
    exact first.trans second

theorem repeated?_cons_cons (a b : Nat × Float) (rest : List (Nat × Float)) :
    repeated? (a :: b :: rest) = if a.1 = b.1 then some a.1 else repeated? (b :: rest) :=
  rfl

/-- Whether an index is repeated, and which one first, depends on the indices alone. -/
theorem repeated?_congr {left right : List (Nat × Float)}
    (same : left.map Prod.fst = right.map Prod.fst) : repeated? left = repeated? right := by
  induction left generalizing right with
  | nil => rw [List.map_eq_nil_iff.1 same.symm]
  | cons a left ih =>
    obtain ⟨b, right, rfl, next, rest⟩ := List.map_eq_cons_iff.1 same.symm
    have later := ih rest.symm
    cases left with
    | nil =>
      rw [List.map_eq_nil_iff.1 rest]
      rfl
    | cons a' left =>
      obtain ⟨b', right, rfl, next', _⟩ := List.map_eq_cons_iff.1 rest
      rw [repeated?_cons_cons, repeated?_cons_cons, next, next', later]

/-- Neighbours tell whether any index of an ordered list is repeated. -/
theorem repeated?_eq_none {arranged : List (Nat × Float)}
    (ordered : (arranged.map Prod.fst).Pairwise (· ≤ ·)) :
    repeated? arranged = none ↔ (arranged.map Prod.fst).Nodup := by
  induction arranged with
  | nil => simp [repeated?]
  | cons a rest ih =>
    obtain ⟨first, later⟩ := List.pairwise_cons.1 ordered
    cases rest with
    | nil => simp [repeated?]
    | cons b rest =>
      rw [repeated?_cons_cons, List.map_cons, List.nodup_cons, ← ih later]
      constructor
      · intro unrepeated
        obtain ⟨differ, unrepeated⟩ : a.1 ≠ b.1 ∧ repeated? (b :: rest) = none := by
          split at unrepeated
          · cases unrepeated
          · exact ⟨‹_›, unrepeated⟩
        refine ⟨fun member => differ ?_, unrepeated⟩
        -- an index that comes back is not below the one in between
        obtain same | behind := List.mem_cons.1 member
        · exact same
        · exact (first b.1 List.mem_cons_self).antisymm ((List.pairwise_cons.1 later).1 a.1 behind)
      · rintro ⟨fresh, unrepeated⟩
        have differ : a.1 ≠ b.1 := fun same => fresh (same ▸ List.mem_cons_self)
        rw [if_neg differ, unrepeated]

/-- Where no index is repeated, the indices go up strictly. -/
theorem arrange_increasing (unrepeated : repeated? (arrange entries) = none) :
    ((arrange entries).map Prod.fst).Pairwise (· < ·) :=
  ((arrange_ordered entries).and ((repeated?_eq_none (arrange_ordered entries)).1 unrepeated)).imp
    fun below => lt_of_le_of_ne below.1 below.2

theorem arrange_indices (perm : (nonzero entries').Perm (nonzero entries)) :
    (arrange entries').map Prod.fst = (arrange entries).map Prod.fst :=
  List.Perm.eq_of_pairwise (fun _ _ _ _ => Nat.le_antisymm) (arrange_ordered entries')
    (arrange_ordered entries)
    (((arrange_perm entries').trans (perm.trans (arrange_perm entries).symm)).map Prod.fst)

/-- Indices that go up strictly determine the order of the entries. -/
theorem eq_of_increasing {left right : List (Nat × Float)}
    (increasing : (left.map Prod.fst).Pairwise (· < ·))
    (increasing' : (right.map Prod.fst).Pairwise (· < ·)) (perm : left.Perm right) :
    left = right := by
  refine List.Perm.eq_of_pairwise ?_ (List.pairwise_map.1 increasing)
    (List.pairwise_map.1 increasing') perm
  intro a b _ _ above below
  exact absurd above below.not_gt

theorem arrange_congr (perm : (nonzero entries').Perm (nonzero entries))
    (unrepeated : repeated? (arrange entries) = none) : arrange entries' = arrange entries := by
  have unrepeated' : repeated? (arrange entries') = none := by
    rw [repeated?_congr (arrange_indices perm), unrepeated]
  exact eq_of_increasing (arrange_increasing unrepeated') (arrange_increasing unrepeated)
    ((arrange_perm entries').trans (perm.trans (arrange_perm entries).symm))

/-! ### The vector built -/

theorem ofEntries_congr (perm : (nonzero entries').Perm (nonzero entries)) :
    ofEntries owner dimension entries' = ofEntries owner dimension entries := by
  unfold ofEntries
  cases repeats : repeated? (arrange entries) with
  | some index =>
    simp only [repeated?_congr (arrange_indices perm), repeats]
  | none => rw [arrange_congr perm repeats]

/-- What is built, and when. -/
theorem ofEntries_eq_ok_iff {vec : SparseVec} : ofEntries owner dimension entries = .ok vec ↔
    Admissible dimension entries ∧ vec = ⟨dimension, arrange entries⟩ := by
  have distinct : repeated? (arrange entries) = none ↔ ((nonzero entries).map Prod.fst).Nodup :=
    (repeated?_eq_none (arrange_ordered entries)).trans
      ((arrange_perm entries).map Prod.fst).nodup_iff
  have inside : ((arrange entries).find? fun entry => decide (dimension ≤ entry.1)) = none ↔
      ∀ entry ∈ nonzero entries, entry.1 < dimension := by
    rw [List.find?_eq_none]
    simp [(arrange_perm entries).mem_iff]
  have finite : ((arrange entries).all fun entry => entry.2.isFinite) = true ↔
      ∀ entry ∈ nonzero entries, entry.2.isFinite = true := by
    rw [List.all_eq_true]
    simp only [(arrange_perm entries).mem_iff]
  unfold ofEntries
  dsimp only
  constructor
  · intro built
    split at built
    · cases built
    · rename_i unrepeated
      split at built
      · cases built
      · rename_i found
        split at built
        · rename_i bounded
          cases built
          exact ⟨⟨distinct.1 unrepeated, inside.1 found, finite.1 bounded⟩, rfl⟩
        · cases built
  · rintro ⟨admissible, rfl⟩
    rw [distinct.2 admissible.distinct, inside.2 admissible.inside]
    exact if_pos (finite.2 admissible.finite)

theorem holds_arrange (admissible : Admissible dimension entries) :
    Holds ⟨dimension, arrange entries⟩ dimension entries := by
  have increasing := arrange_increasing
    ((repeated?_eq_none (arrange_ordered entries)).2
      (((arrange_perm entries).map Prod.fst).nodup_iff.2 admissible.distinct))
  have inside : ∀ i ∈ (arrange entries).map Prod.fst, i < dimension := by
    intro i member
    obtain ⟨entry, listed, rfl⟩ := List.mem_map.1 member
    exact admissible.inside entry ((arrange_perm entries).mem_iff.1 listed)
  refine ⟨rfl, increasing, inside, arrange_perm entries, fun takes accepts => ?_⟩
  exact accepts dimension _ _ increasing inside (by simp [indices, values])

/-- The canonical form is unique. -/
theorem Holds.eq {vec vec' : SparseVec} (held : vec.Holds dimension entries)
    (held' : vec'.Holds dimension entries') (moved : Rearranges entries entries') : vec = vec' := by
  have same : vec.entries = vec'.entries := eq_of_increasing held.increasing held'.increasing
    (held.exactly.trans (moved.nonzero_perm.symm.trans held'.exactly.symm))
  have sized : vec.dimension = vec'.dimension := held.sized.trans held'.sized.symm
  cases vec
  cases vec'
  rw [mk.injEq]
  exact ⟨sized, same⟩

theorem Holds.finite {vec : SparseVec} (held : vec.Holds dimension entries)
    (admissible : Admissible dimension entries) : ∀ a ∈ vec.values, a.isFinite = true := by
  intro a member
  obtain ⟨entry, listed, rfl⟩ := List.mem_map.1 member
  exact admissible.finite entry (held.exactly.mem_iff.1 listed)

theorem near_self {vec : SparseVec} {tolerance : Float}
    (finite : ∀ a ∈ vec.values, a.isFinite = true) (nonneg : 0.0 ≤ tolerance) :
    vec.near vec tolerance = true := by
  unfold near
  rw [beq_self_eq_true, Bool.true_and, List.zip, List.zipWith_self, List.all_map]
  refine List.all_eq_true.2 fun a member => ?_
  exact decide_eq_true (Double.abs_sub_self_le (finite a member) nonneg)

end SparseVec

/-! ### Rows and columns -/

/-- A construction from entries that is canonical: what it gives, also as an error, does not
depend on the order of the entries nor on explicit zeros; it succeeds exactly on admissible entries
beside valid data, and then makes its object from the vector in canonical form. -/
structure Canonical {α : Type} (build : List (Nat × Float) → Except Error α) (valid : Prop)
    (dimension : Nat) (make : SparseVec → α) : Prop where
  rearranged : ∀ entries entries', SparseVec.Rearranges entries entries' →
    build entries' = build entries
  succeeds : ∀ entries, (∃ a, build entries = .ok a) ↔
    valid ∧ SparseVec.Admissible dimension entries
  holds : ∀ entries a, build entries = .ok a →
    ∃ vec : SparseVec, a = make vec ∧ vec.Holds dimension entries

/-- A construction that looks at its data first and then builds the vector. -/
theorem Canonical.of_checked {α : Type} {refused : Bool} {valid : Prop} (fault : Error)
    (accepts : valid ↔ ¬refused = true) (owner : String) (dimension : Nat)
    (make : SparseVec → α) :
    Canonical (fun entries => if refused = true then .error fault
      else do
        let coefs ← SparseVec.ofEntries owner dimension entries
        return make coefs) valid dimension make := by
  cases refused with
  | true =>
    refine ⟨fun _ _ _ => rfl, fun entries => ⟨nofun, ?_⟩, nofun⟩
    rintro ⟨inOrder, _⟩
    exact absurd rfl (accepts.1 inOrder)
  | false =>
    have inOrder : valid := accepts.2 Bool.false_ne_true
    have built (entries : List (Nat × Float)) (a : α) :
        ((do
          let coefs ← SparseVec.ofEntries owner dimension entries
          return make coefs : Except Error α) = .ok a) ↔
        SparseVec.Admissible dimension entries ∧
          a = make ⟨dimension, SparseVec.arrange entries⟩ := by
      cases vec : SparseVec.ofEntries owner dimension entries with
      | error fault =>
        refine ⟨nofun, fun ⟨admissible, _⟩ => ?_⟩
        rw [SparseVec.ofEntries_eq_ok_iff.2 ⟨admissible, rfl⟩] at vec
        cases vec
      | ok vec' =>
        obtain ⟨admissible, rfl⟩ := SparseVec.ofEntries_eq_ok_iff.1 vec
        refine ⟨fun same => ?_, fun ⟨_, same⟩ => congrArg Except.ok same.symm⟩
        cases same
        exact ⟨admissible, rfl⟩
    refine ⟨fun entries entries' moved => ?_, fun entries => ?_, fun entries a made => ?_⟩
    · rw [SparseVec.ofEntries_congr moved.nonzero_perm]
    · constructor
      · rintro ⟨a, made⟩
        exact ⟨inOrder, ((built entries a).1 made).1⟩
      · rintro ⟨_, admissible⟩
        exact ⟨_, (built entries _).2 ⟨admissible, rfl⟩⟩
    · obtain ⟨admissible, rfl⟩ := (built entries a).1 made
      exact ⟨_, rfl, SparseVec.holds_arrange admissible⟩

theorem Row.ofEntries_canonical (name : String) (dimension : Nat) (lhs rhs : Float) :
    Canonical (fun entries => Row.ofEntries name dimension entries lhs rhs) (lhs ≤ rhs) dimension
      (fun vec => ⟨name, vec, lhs, rhs, false⟩) :=
  Canonical.of_checked _ Double.le_iff_not_crossed name dimension _

theorem Column.ofEntries_canonical (name : String) (objective lower upper : Float)
    (dimension : Nat) :
    Canonical (fun entries => Column.ofEntries name objective lower upper dimension entries)
      (objective.isFinite = true ∧ lower ≤ upper) dimension
      (fun vec => ⟨name, objective, lower, upper, vec, false⟩) := by
  refine Canonical.of_checked (.invalid (.invalidColumn name)) ?_ name dimension _
  rw [Double.le_iff_not_crossed]
  simp [and_assoc]

/-- Rows that agree but for their names are the same cut, if their sides are defined and their
coefficients finite. -/
theorem Row.sameCut_of_coefs {left right : Row} {tolerance : Float}
    (coefs : left.coefs = right.coefs) (lhs : left.lhs = right.lhs) (rhs : left.rhs = right.rhs)
    (inOrder : left.lhs ≤ left.rhs) (finite : ∀ a ∈ left.coefs.values, a.isFinite = true)
    (nonneg : 0.0 ≤ tolerance) : left.sameCut right tolerance = true := by
  obtain ⟨defined, defined', _⟩ := Double.le_iff.1 inOrder
  unfold Row.sameCut Row.peakCount Row.peak Row.size
  rw [← coefs, ← lhs, ← rhs, Double.close_self defined nonneg, Double.close_self defined' nonneg,
    SparseVec.near_self finite nonneg]
  simp

theorem Row.structuralHash_of_coefs {left right : Row} (coefs : left.coefs = right.coefs) :
    left.structuralHash = right.structuralHash := by
  unfold Row.structuralHash Row.peakCount Row.peak Row.size
  rw [coefs]

/-- Rows and columns are built canonically, under any name and from any data. Rows between the
same sides whose entries are the same up to order and explicit zeros are the same cut at every
tolerance and share their hash. -/
theorem construction_canonical (name : String) (dimension : Nat) :
    (∀ lhs rhs, Canonical (fun entries => Row.ofEntries name dimension entries lhs rhs)
      (lhs ≤ rhs) dimension fun vec => ⟨name, vec, lhs, rhs, false⟩) ∧
    (∀ objective lower upper,
      Canonical (fun entries => Column.ofEntries name objective lower upper dimension entries)
        (objective.isFinite = true ∧ lower ≤ upper) dimension
        fun vec => ⟨name, objective, lower, upper, vec, false⟩) ∧
    ∀ name' lhs rhs entries entries' left right, SparseVec.Rearranges entries entries' →
      Row.ofEntries name dimension entries lhs rhs = .ok left →
      Row.ofEntries name' dimension entries' lhs rhs = .ok right →
      (∀ tolerance, 0.0 ≤ tolerance → left.sameCut right tolerance = true) ∧
        left.structuralHash = right.structuralHash := by
  refine ⟨Row.ofEntries_canonical name dimension, fun objective lower upper =>
    Column.ofEntries_canonical name objective lower upper dimension, ?_⟩
  intro name' lhs rhs entries entries' left right moved built built'
  have canonical := Row.ofEntries_canonical name dimension lhs rhs
  obtain ⟨vec, rfl, held⟩ := canonical.holds entries left built
  obtain ⟨vec', rfl, held'⟩ :=
    (Row.ofEntries_canonical name' dimension lhs rhs).holds entries' right built'
  obtain ⟨inOrder, admissible⟩ := (canonical.succeeds entries).1 ⟨_, built⟩
  have same : vec = vec' := held.eq held' moved
  refine ⟨fun tolerance nonneg => ?_, Row.structuralHash_of_coefs same⟩
  exact Row.sameCut_of_coefs same rfl rfl inOrder (held.finite admissible) nonneg

/-- A row of three coefficients, and one from its entries in another order with two zeros. -/
theorem construction_canonical_reordered : ∃ left right,
    Row.ofEntries "left" 10 [(5, -2.0), (1, 1.0), (3, 2.0)] 0.0 4.0 = .ok left ∧
    Row.ofEntries "right" 10 [(3, 2.0), (12, -0.0), (1, 1.0), (5, -2.0), (7, 0.0)] 0.0 4.0 =
      .ok right ∧
    left.coefs.indices = [1, 3, 5] ∧ left.sameCut right 0.0 = true ∧
      left.structuralHash = right.structuralHash := by
  have moved : SparseVec.Rearranges [(5, -2.0), (1, 1.0), (3, 2.0)]
      [(3, 2.0), (12, -0.0), (1, 1.0), (5, -2.0), (7, 0.0)] :=
    ⟨[(12, -0.0), (7, 0.0)], by decide +kernel, by decide +kernel⟩
  have built : Row.ofEntries "left" 10 [(5, -2.0), (1, 1.0), (3, 2.0)] 0.0 4.0 =
      .ok ⟨"left", ⟨10, [(1, 1.0), (3, 2.0), (5, -2.0)]⟩, 0.0, 4.0, false⟩ := by decide +kernel
  have built' : Row.ofEntries "right" 10
      [(3, 2.0), (12, -0.0), (1, 1.0), (5, -2.0), (7, 0.0)] 0.0 4.0 =
      .ok ⟨"right", ⟨10, [(1, 1.0), (3, 2.0), (5, -2.0)]⟩, 0.0, 4.0, false⟩ := by decide +kernel
  obtain ⟨same, hash⟩ := (construction_canonical "left" 10).2.2 "right" 0.0 4.0 _ _ _ _ moved
    built built'
  exact ⟨_, _, built, built', rfl, same 0.0 (by decide +kernel), hash⟩

end BranchCutPrice
