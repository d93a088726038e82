import BranchCutPrice.Numeric.Double
import Mathlib

/-!
The order of doubles. Defined doubles have a place in a linear order and are compared by
their places; the two zeros share theirs. No comparison with an undefined operand holds. Opposite
differences have the same magnitude, and factors may be exchanged.
-/

open Float.Model Float.Model.UnpackedFloat

namespace BranchCutPrice.Double

/-! ### Unpacked doubles -/

/-- The place in the order of values: by sign and kind, then by exponent, then by mantissa. -/
def place : UnpackedFloat → ℤ ×ₗ ℤ ×ₗ ℤ
  | .notANumber => toLex (0, toLex (0, 0))
  | .infinity .negative => toLex (-2, toLex (0, 0))
  | .infinity .positive => toLex (2, toLex (0, 0))
  | .zero _ => toLex (0, toLex (0, 0))
  | .finite .negative mantissa exponent _ => toLex (-1, toLex (-exponent, -(mantissa : ℤ)))
  | .finite .positive mantissa exponent _ => toLex (1, toLex (exponent, (mantissa : ℤ)))

private theorem then_compare (a b : ℤ) (m n : ℕ) :
    (a < b ∨ a = b ∧ m < n) ∧ (compare a b).then (compare m n) = .lt ∨
      (a = b ∧ m = n) ∧ (compare a b).then (compare m n) = .eq ∨
      (b < a ∨ b = a ∧ n < m) ∧ (compare a b).then (compare m n) = .gt := by
  obtain less | rfl | greater := lt_trichotomy a b
  · rw [compare_lt_iff_lt.2 less]
    exact .inl ⟨.inl less, rfl⟩
  · rw [compare_eq_iff_eq.2 rfl]
    obtain less | rfl | greater := lt_trichotomy m n
    · exact .inl ⟨.inr ⟨rfl, less⟩, compare_lt_iff_lt.2 less⟩
    · exact .inr (.inl ⟨⟨rfl, rfl⟩, compare_eq_iff_eq.2 rfl⟩)
    · exact .inr (.inr ⟨.inr ⟨rfl, greater⟩, compare_gt_iff_gt.2 greater⟩)
  · rw [compare_gt_iff_gt.2 greater]
    exact .inr (.inr ⟨.inl greater, rfl⟩)

private theorem place_lt_of_fst {u v : UnpackedFloat}
    (less : (ofLex (place u)).1 < (ofLex (place v)).1) : place u < place v :=
  Prod.Lex.lt_iff.2 (.inl less)

private theorem positive_lt {m m' : ℕ} {e e' : ℤ} {h : 0 < m} {h' : 0 < m'}
    (less : e < e' ∨ e = e' ∧ m < m') :
    place (.finite .positive m e h) < place (.finite .positive m' e' h') := by
  refine Prod.Lex.toLex_lt_toLex.2 (.inr ⟨rfl, Prod.Lex.toLex_lt_toLex.2 ?_⟩)
  change e < e' ∨ e = e' ∧ (m : ℤ) < m'
  omega

private theorem negative_lt {m m' : ℕ} {e e' : ℤ} {h : 0 < m} {h' : 0 < m'}
    (less : e < e' ∨ e = e' ∧ m < m') :
    place (.finite .negative m' e' h') < place (.finite .negative m e h) := by
  refine Prod.Lex.toLex_lt_toLex.2 (.inr ⟨rfl, Prod.Lex.toLex_lt_toLex.2 ?_⟩)
  change -e' < -e ∨ -e' = -e ∧ -(m' : ℤ) < -m
  omega

/-- Defined doubles are compared by their places. -/
theorem compare_place {u v : UnpackedFloat} (defined : u.isNaN = false)
    (defined' : v.isNaN = false) :
    place u < place v ∧ u.compare v = some .lt ∨ place u = place v ∧ u.compare v = some .eq ∨
      place v < place u ∧ u.compare v = some .gt := by
  let swapped (order : Ordering) : Option Ordering := some order.swap
  rcases u with ⟨⟨⟩⟩ | _ | _ | ⟨⟨⟩, m, e, h⟩ <;> rcases v with ⟨⟨⟩⟩ | _ | _ | ⟨⟨⟩, m', e', h'⟩
  case finite.negative.finite.negative =>
    obtain ⟨less, ended⟩ | ⟨⟨rfl, rfl⟩, ended⟩ | ⟨less, ended⟩ := then_compare e e' m m'
    · exact .inr (.inr ⟨negative_lt less, congrArg swapped ended⟩)
    · exact .inr (.inl ⟨rfl, congrArg swapped ended⟩)
    · exact .inl ⟨negative_lt less, congrArg swapped ended⟩
  case finite.positive.finite.positive =>
    obtain ⟨less, ended⟩ | ⟨⟨rfl, rfl⟩, ended⟩ | ⟨less, ended⟩ := then_compare e e' m m'
    · exact .inl ⟨positive_lt less, congrArg some ended⟩
    · exact .inr (.inl ⟨rfl, congrArg some ended⟩)
    · exact .inr (.inr ⟨positive_lt less, congrArg some ended⟩)
  -- sign and kind decide between all others
  all_goals
    first
    | cases defined
      done
    | cases defined'
      done
    | exact .inl ⟨place_lt_of_fst (by simp only [place, ofLex_toLex]; decide), rfl⟩
    | exact .inr (.inl ⟨rfl, rfl⟩)
    | exact .inr (.inr ⟨place_lt_of_fst (by simp only [place, ofLex_toLex]; decide), rfl⟩)

/-- Nothing is compared with what is undefined. -/
theorem compare_undefined {u v : UnpackedFloat}
    (undefined : ¬(u.isNaN = false ∧ v.isNaN = false)) : u.compare v = none := by
  rcases u with ⟨⟨⟩⟩ | _ | _ | ⟨⟨⟩, _, _, _⟩ <;> rcases v with ⟨⟨⟩⟩ | _ | _ | ⟨⟨⟩, _, _, _⟩ <;>
    first | rfl | exact absurd ⟨rfl, rfl⟩ undefined

theorem unpacked_lt_iff (u v : UnpackedFloat) :
    u.lt v = true ↔ u.isNaN = false ∧ v.isNaN = false ∧ place u < place v := by
  unfold UnpackedFloat.lt
  by_cases both : u.isNaN = false ∧ v.isNaN = false
  · obtain ⟨defined, defined'⟩ := both
    obtain ⟨less, ended⟩ | ⟨same, ended⟩ | ⟨greater, ended⟩ := compare_place defined defined'
    · simp [ended, defined, defined', less]
    · simp [ended, same]
    · simp [ended, greater.le]
  · rw [compare_undefined both, ← and_assoc]
    simp only [both, false_and, iff_false]
    decide

theorem unpacked_le_iff (u v : UnpackedFloat) :
    u.le v = true ↔ u.isNaN = false ∧ v.isNaN = false ∧ place u ≤ place v := by
  unfold UnpackedFloat.le
  by_cases both : u.isNaN = false ∧ v.isNaN = false
  · obtain ⟨defined, defined'⟩ := both
    obtain ⟨less, ended⟩ | ⟨same, ended⟩ | ⟨greater, ended⟩ := compare_place defined defined'
    · simp [ended, defined, defined', less.le]
    · simp [ended, defined, defined', same]
    · simp [ended, greater]
  · rw [compare_undefined both, ← and_assoc]
    simp only [both, false_and, iff_false]
    decide

theorem unpacked_beq_iff (u v : UnpackedFloat) :
    u.beq v = true ↔ u.isNaN = false ∧ v.isNaN = false ∧ place u = place v := by
  unfold UnpackedFloat.beq
  by_cases both : u.isNaN = false ∧ v.isNaN = false
  · obtain ⟨defined, defined'⟩ := both
    obtain ⟨less, ended⟩ | ⟨same, ended⟩ | ⟨greater, ended⟩ := compare_place defined defined'
    · simp [ended, less.ne]
    · simp [ended, defined, defined', same]
    · simp [ended, greater.ne']
  · rw [compare_undefined both, ← and_assoc]
    simp only [both, false_and, iff_false]
    decide

/-! ### Doubles -/

section

variable {a b c : Float}

theorem lt_iff : a < b ↔ a.isNaN = false ∧ b.isNaN = false ∧
    place a.toModel.unpack < place b.toModel.unpack :=
  decide_eq_true_iff.trans (unpacked_lt_iff a.toModel.unpack b.toModel.unpack)

theorem le_iff : a ≤ b ↔ a.isNaN = false ∧ b.isNaN = false ∧
    place a.toModel.unpack ≤ place b.toModel.unpack :=
  decide_eq_true_iff.trans (unpacked_le_iff a.toModel.unpack b.toModel.unpack)

theorem lt_of_lt_of_le (less : a < b) (most : b ≤ c) : a < c := by
  obtain ⟨defined, _, below⟩ := lt_iff.1 less
  obtain ⟨_, defined', above⟩ := le_iff.1 most
  exact lt_iff.2 ⟨defined, defined', below.trans_le above⟩

theorem lt_of_le_of_lt (most : a ≤ b) (less : b < c) : a < c := by
  obtain ⟨defined, _, below⟩ := le_iff.1 most
  obtain ⟨_, defined', above⟩ := lt_iff.1 less
  exact lt_iff.2 ⟨defined, defined', below.trans_lt above⟩

theorem le_trans (first : a ≤ b) (second : b ≤ c) : a ≤ c := by
  obtain ⟨defined, _, below⟩ := le_iff.1 first
  obtain ⟨_, defined', above⟩ := le_iff.1 second
  exact le_iff.2 ⟨defined, defined', below.trans above⟩

theorem le_of_lt (less : a < b) : a ≤ b := by
  obtain ⟨defined, defined', below⟩ := lt_iff.1 less
  exact le_iff.2 ⟨defined, defined', below.le⟩

theorem not_lt_of_le (most : a ≤ b) : ¬b < a := fun less =>
  (le_iff.1 most).2.2.not_gt (lt_iff.1 less).2.2

theorem le_refl (defined : a.isNaN = false) : a ≤ a :=
  le_iff.2 ⟨defined, defined, le_rfl⟩

theorem lt_of_not_le (defined : a.isNaN = false) (defined' : b.isNaN = false) (above : ¬a ≤ b) :
    b < a := by
  refine lt_iff.2 ⟨defined', defined, lt_of_not_ge fun below => above ?_⟩
  exact le_iff.2 ⟨defined, defined', below⟩

theorem le_of_not_lt (defined : a.isNaN = false) (defined' : b.isNaN = false) (above : ¬a < b) :
    b ≤ a := by
  refine le_iff.2 ⟨defined', defined, le_of_not_gt fun below => above ?_⟩
  exact lt_iff.2 ⟨defined, defined', below⟩

theorem beq_iff : (a == b) = true ↔ a ≤ b ∧ b ≤ a := by
  refine (unpacked_beq_iff a.toModel.unpack b.toModel.unpack).trans ?_
  rw [le_iff, le_iff]
  constructor
  · rintro ⟨defined, defined', same⟩
    exact ⟨⟨defined, defined', same.le⟩, defined', defined, same.ge⟩
  · rintro ⟨⟨defined, defined', below⟩, _, _, above⟩
    exact ⟨defined, defined', le_antisymm below above⟩

/-- Two bounds are in order if both are defined and they do not cross. -/
theorem le_iff_not_crossed : a ≤ b ↔ ¬(a.isNaN || b.isNaN || decide (b < a)) = true := by
  rw [Bool.or_eq_true, Bool.or_eq_true, decide_eq_true_eq]
  constructor
  · rintro inOrder ((undefined | undefined) | crossed)
    · rw [(le_iff.1 inOrder).1] at undefined
      cases undefined
    · rw [(le_iff.1 inOrder).2.1] at undefined
      cases undefined
    · exact not_lt_of_le inOrder crossed
  · intro accepted
    obtain ⟨defined, uncrossed⟩ := not_or.1 accepted
    obtain ⟨left, right⟩ := not_or.1 defined
    exact le_of_not_lt (Bool.eq_false_iff.2 right) (Bool.eq_false_iff.2 left) uncrossed

theorem infinity_unpack : infinity.toModel.unpack = .infinity .positive := by
  rfl

theorem le_infinity (defined : a.isNaN = false) : a ≤ infinity := by
  refine le_iff.2 ⟨defined, rfl, ?_⟩
  rw [infinity_unpack]
  rcases a.toModel.unpack with ⟨⟨⟩⟩ | _ | _ | ⟨⟨⟩, _, _, _⟩
  case infinity.positive => exact le_rfl
  all_goals exact (place_lt_of_fst (by simp only [place, ofLex_toLex]; decide)).le

/-- The least of some doubles is one of them, and the others are not below it. -/
theorem least_cases (defined : a.isNaN = false) (defined' : b.isNaN = false) :
    least a b = a ∧ a ≤ b ∨ least a b = b ∧ b ≤ a := by
  unfold least
  rw [if_neg (ne_true_of_eq_false defined), if_neg (ne_true_of_eq_false defined')]
  by_cases below : b < a
  · exact .inr ⟨if_pos below, le_of_lt below⟩
  · exact .inl ⟨if_neg below, le_of_not_lt defined' defined below⟩

theorem foldl_least {bounds : List Float} (defined : ∀ b ∈ bounds, b.isNaN = false)
    (start : a.isNaN = false) : bounds.foldl least a ≤ a ∧
      (∀ b ∈ bounds, bounds.foldl least a ≤ b) ∧
      (bounds.foldl least a = a ∨ bounds.foldl least a ∈ bounds) := by
  induction bounds generalizing a with
  | nil => exact ⟨le_refl start, nofun, .inl rfl⟩
  | cons b rest ih =>
    obtain ⟨first, others⟩ := List.forall_mem_cons.1 defined
    rw [List.foldl_cons]
    obtain ⟨same, below⟩ | ⟨same, below⟩ := least_cases start first
    · rw [same]
      obtain ⟨atMost, all, attained⟩ := ih others start
      refine ⟨atMost, List.forall_mem_cons.2 ⟨le_trans atMost below, all⟩, ?_⟩
      exact attained.imp_right (List.mem_cons_of_mem b)
    · rw [same]
      obtain ⟨atMost, all, attained⟩ := ih others first
      refine ⟨le_trans atMost below, List.forall_mem_cons.2 ⟨atMost, all⟩, .inr ?_⟩
      obtain here | later := attained
      · rw [here]
        exact List.mem_cons_self
      · exact List.mem_cons_of_mem b later

end

/-! ### Differences -/

private theorem abs_round (spec : Format) (s s' : Sign) (mantissa : ℕ) (exponent : ℤ) :
    (round spec s mantissa exponent).abs = (round spec s' mantissa exponent).abs := by
  unfold UnpackedFloat.round roundWithAccuracy
  dsimp only
  split <;> rfl

theorem normalize_neg (spec : Format) {mantissa : ℤ} (negative : mantissa < 0) (exponent : ℤ)
    (s : Sign) : normalize spec mantissa exponent s =
      round spec .negative (-mantissa).toNat exponent := by
  unfold UnpackedFloat.normalize
  rw [compare_lt_iff_lt.2 negative]

theorem normalize_pos (spec : Format) {mantissa : ℤ} (positive : 0 < mantissa) (exponent : ℤ)
    (s : Sign) : normalize spec mantissa exponent s =
      round spec .positive mantissa.toNat exponent := by
  unfold UnpackedFloat.normalize
  rw [compare_gt_iff_gt.2 positive]

theorem normalize_zero (spec : Format) (exponent : ℤ) (s : Sign) :
    normalize spec 0 exponent s = .zero s := by
  unfold UnpackedFloat.normalize
  rw [compare_eq_iff_eq.2 rfl]

private theorem abs_normalize_neg (spec : Format) (mantissa exponent : ℤ) (s : Sign) :
    (normalize spec mantissa exponent s).abs = (normalize spec (-mantissa) exponent s).abs := by
  obtain negative | rfl | positive := lt_trichotomy mantissa 0
  · rw [normalize_neg spec negative, normalize_pos spec (by omega)]
    exact abs_round spec _ _ _ _
  · rw [Int.neg_zero]
  · rw [normalize_pos spec positive, normalize_neg spec (by omega), Int.neg_neg]
    exact abs_round spec _ _ _ _

/-- Opposite differences have the same magnitude. -/
theorem abs_sub_unpacked (spec : Format) (u v : UnpackedFloat) :
    (UnpackedFloat.sub spec u v).abs = (UnpackedFloat.sub spec v u).abs := by
  rcases u with ⟨⟨⟩⟩ | _ | ⟨⟨⟩⟩ | ⟨s, m, e, _⟩ <;> rcases v with ⟨⟨⟩⟩ | _ | ⟨⟨⟩⟩ | ⟨s', m', e', _⟩
  case finite.finite =>
    unfold UnpackedFloat.sub
    dsimp only
    rw [abs_normalize_neg, Int.neg_sub, min_comm e' e]
  all_goals rfl

private theorem abs_unpack_components (spec : Format) (s s' : Sign)
    (exponent : BitVec spec.exponentBits) (mantissa : BitVec spec.mantissaBitsWithoutImplicit) :
    (UnpackedFloat.unpack spec (packComponents spec s exponent mantissa)).abs =
      (UnpackedFloat.unpack spec (packComponents spec s' exponent mantissa)).abs := by
  unfold UnpackedFloat.unpack
  simp only [unpackMantissa_packComponents, unpackExponent_packComponents]
  split
  · split <;> rfl
  · split
    · split <;> rfl
    · rfl

/-- The sign is packed beside the magnitude. -/
private theorem pack_finite (spec : Format) {mantissa : ℕ} (positive : 0 < mantissa)
    (exponent : ℤ) : ∃ e m, ∀ s, UnpackedFloat.pack spec (.finite s mantissa exponent positive) =
      packComponents spec s e m := by
  unfold UnpackedFloat.pack packedInfinity
  dsimp only
  split
  · exact ⟨_, _, fun _ => rfl⟩
  · split
    · exact ⟨_, _, fun _ => rfl⟩
    · exact ⟨_, _, fun _ => rfl⟩

theorem abs_unpack_pack (spec : Format) (u : UnpackedFloat) :
    (UnpackedFloat.unpack spec (UnpackedFloat.pack spec u)).abs =
      (UnpackedFloat.unpack spec (UnpackedFloat.pack spec u.abs)).abs := by
  cases u with
  | notANumber => rfl
  | infinity s => exact abs_unpack_components spec _ _ _ _
  | zero s => exact abs_unpack_components spec _ _ _ _
  | finite s mantissa exponent positive =>
    obtain ⟨e, m, packed⟩ := pack_finite spec positive exponent
    change _ = (UnpackedFloat.unpack spec
      (UnpackedFloat.pack spec (.finite .positive mantissa exponent positive))).abs
    rw [packed, packed]
    exact abs_unpack_components spec _ _ _ _

theorem abs_sub_comm (a b : Float) : (a - b).abs = (b - a).abs := by
  have magnitude (a b : Float) : (a - b).toModel.unpack.abs =
      (UnpackedFloat.unpack Format.binary64 (UnpackedFloat.pack Format.binary64
        (UnpackedFloat.sub Format.binary64 a.toModel.unpack b.toModel.unpack).abs)).abs :=
    abs_unpack_pack _ _
  change Float.ofModel (Float.Model.pack _) = Float.ofModel (Float.Model.pack _)
  rw [magnitude, magnitude, abs_sub_unpacked]

theorem close_comm (a b tolerance : Float) : close a b tolerance = close b a tolerance := by
  unfold close
  rw [Bool.or_comm, BEq.comm, abs_sub_comm]

theorem unpacked_sub_self (spec : Format) {u : UnpackedFloat} (finite : u.isFinite = true) :
    UnpackedFloat.sub spec u u = .zero .positive := by
  rcases u with _ | _ | ⟨⟨⟩⟩ | ⟨s, m, e, _⟩
  case finite =>
    unfold UnpackedFloat.sub
    dsimp only
    rw [Int.sub_self, normalize_zero]
  case zero.negative => rfl
  case zero.positive => rfl
  all_goals cases finite

/-- A finite double minus itself is positive zero. -/
theorem sub_self {a : Float} (finite : a.isFinite = true) : a - a = 0.0 := by
  change Float.ofModel (Float.Model.pack (UnpackedFloat.sub _ _ _)) = _
  rw [unpacked_sub_self _ finite]
  rfl

theorem isFinite_of_defined {a : Float} (defined : a.isNaN = false) (bounded : a.isInf = false) :
    a.isFinite = true := by
  have finite (u : UnpackedFloat) (defined : u.isNaN = false) (bounded : u.isInf = false) :
      u.isFinite = true := by
    cases u with
    | notANumber => cases defined
    | infinity => cases bounded
    | zero => rfl
    | finite => rfl
  exact finite a.toModel.unpack defined bounded

theorem abs_sub_self_le {a tolerance : Float} (finite : a.isFinite = true)
    (nonneg : 0.0 ≤ tolerance) : (a - a).abs ≤ tolerance := by
  rw [sub_self finite]
  exact nonneg

theorem close_self {a tolerance : Float} (defined : a.isNaN = false) (nonneg : 0.0 ≤ tolerance) :
    close a a tolerance = true := by
  unfold close
  cases unbounded : a.isInf with
  | true => exact beq_iff.2 ⟨le_refl defined, le_refl defined⟩
  | false => exact decide_eq_true (abs_sub_self_le (isFinite_of_defined defined unbounded) nonneg)

/-! ### Products -/

theorem sign_mul_comm (s s' : Sign) : s * s' = s' * s := by
  cases s <;> cases s' <;> rfl

theorem unpacked_mul_comm (spec : Format) (u v : UnpackedFloat) :
    UnpackedFloat.mul spec u v = UnpackedFloat.mul spec v u := by
  rcases u with s | _ | s | ⟨s, m, e, _⟩ <;> rcases v with s' | _ | s' | ⟨s', m', e', _⟩
  case finite.finite =>
    unfold UnpackedFloat.mul
    dsimp only
    rw [sign_mul_comm, Nat.mul_comm, Int.add_comm]
  all_goals simp only [UnpackedFloat.mul, sign_mul_comm]

theorem mul_comm (a b : Float) : a * b = b * a := by
  change Float.ofModel (Float.Model.pack (UnpackedFloat.mul _ _ _)) =
    Float.ofModel (Float.Model.pack (UnpackedFloat.mul _ _ _))
  rw [unpacked_mul_comm]

end BranchCutPrice.Double
