import BranchCutPrice.Proofs.Rounding

/-!
Operations on doubles that round nothing: a negated double is the opposite one, so negation
reverses the order, and whole numbers below `2 ^ 53` are doubles, in the same order.
-/

open Float.Model Float.Model.UnpackedFloat

namespace BranchCutPrice.Double

/-! ### Opposites -/

section

variable {a b : Float}

/-- What a double unpacks to is stored as it is. -/
theorem stored_neg_unpack (bits : BitVec Format.binary64.numBits) :
    stored (UnpackedFloat.unpack Format.binary64 bits).neg =
      (UnpackedFloat.unpack Format.binary64 bits).neg := by
  cases unpacked : UnpackedFloat.unpack Format.binary64 bits with
  | notANumber => rfl
  | infinity s => cases s <;> rfl
  | zero s => cases s <;> rfl
  | finite s m e h =>
    obtain ⟨proper, most⟩ := unpack_proper unpacked
    exact (unpack_pack _ h proper).trans (if_pos most)

theorem unpack_neg (a : Float) : (-a).toModel.unpack = a.toModel.unpack.neg :=
  stored_neg_unpack _

theorem isNaN_neg_unpacked (u : UnpackedFloat) : u.neg.isNaN = u.isNaN := by
  cases u <;> rfl

theorem isNaN_neg (a : Float) : (-a).isNaN = a.isNaN := by
  change (-a).toModel.unpack.isNaN = a.toModel.unpack.isNaN
  rw [unpack_neg, isNaN_neg_unpacked]

/-- Opposites take opposite places. -/
theorem place_neg (u : UnpackedFloat) : place u.neg =
    toLex (-(ofLex (place u)).1,
      toLex (-(ofLex (ofLex (place u)).2).1, -(ofLex (ofLex (place u)).2).2)) := by
  rcases u with ⟨⟨⟩⟩ | _ | _ | ⟨⟨⟩, m, e, h⟩
  case finite.negative =>
    change toLex ((1 : ℤ), toLex (e, (m : ℤ))) = toLex (- -1, toLex (- -e, - -(m : ℤ)))
    simp only [neg_neg]
  all_goals rfl

theorem place_neg_lt (u v : UnpackedFloat) : place v.neg < place u.neg ↔ place u < place v := by
  rw [place_neg, place_neg]
  simp only [Prod.Lex.lt_iff, ofLex_toLex]
  omega

theorem neg_lt_neg_iff : -b < -a ↔ a < b := by
  rw [lt_iff, lt_iff, isNaN_neg, isNaN_neg, unpack_neg, unpack_neg, place_neg_lt]
  exact and_left_comm

end

/-! ### Whole numbers -/

section

variable {m n : ℕ}

/-- A finite double is the same after a multiplication by one. -/
theorem mul_one_stored {m : ℕ} {e : ℤ} {h h' : 0 < m} {one : 0 < 2 ^ 52} (proper : Proper m e)
    (most : e ≤ 971) :
    stored (UnpackedFloat.mul Format.binary64 (.finite .positive m e h)
      (.finite .positive (2 ^ 52) (-52) one)) = .finite .positive m e h' := by
  have long := log2_mul_two_pow h 52
  have bits : m.log2 ≤ 52 := Nat.lt_succ_iff.1 ((Nat.log2_lt h.ne').2 proper.short)
  have target : max (((m * 2 ^ 52).log2 : ℤ) + (e + -52) - 52) (-1074) = e := by
    have full (full : 2 ^ 52 ≤ m) : m.log2 = 52 :=
      Nat.le_antisymm bits ((Nat.le_log2 h.ne').2 full)
    have least := proper.least
    have := proper.full
    omega
  have shifted : (ExtendedMantissa.mk (m * 2 ^ 52) false false >>>
      (max (((m * 2 ^ 52).log2 : ℤ) + (e + -52) - 52) (-1074) -
        (e + -52)).toNat).roundedMantissa = m := by
    rw [target, show (e - (e + -52)).toNat = 52 by omega,
      (shift_exact (m * 2 ^ 52) 52).2 (Nat.dvd_mul_left _ _),
      Nat.mul_div_cancel _ (Nat.two_pow_pos 52)]
    rfl
  have reached : e + -52 + (max (((m * 2 ^ 52).log2 : ℤ) + (e + -52) - 52) (-1074) -
      (e + -52)).toNat = e := by
    omega
  obtain ⟨m', e', positive, product, final⟩ :=
    roundWithAccuracy_cases .positive shifted reached h proper.short.le proper.least
  obtain ⟨overflow, _⟩ | ⟨_, rfl, rfl⟩ := final
  · exact absurd overflow proper.short.ne
  · change stored (roundWithAccuracy Format.binary64 .positive (m' * 2 ^ 52) (e' + -52) .exact) = _
    rw [product]
    exact (unpack_pack _ positive proper).trans (if_pos most)

/-- A whole number keeps all its bits, the leading one in front. -/
theorem ofNat_unpack (positive : 0 < n) (small : n < 2 ^ 53) :
    ∃ h, (Float.ofNat n).toModel.unpack =
      .finite .positive (n * 2 ^ (52 - n.log2)) ((n.log2 : ℤ) - 52) h := by
  have bits : n.log2 ≤ 52 := Nat.lt_succ_iff.1 ((Nat.log2_lt positive.ne').2 small)
  have product : Float.ofNat n = n.toUInt64.toFloat * Float.ofBits 0x3FF0000000000000 :=
    dif_pos ⟨small, by decide⟩
  have same : n.toUInt64.toNat = n := Nat.mod_eq_of_lt (small.trans (by decide))
  obtain ⟨fits, h, rounded⟩ : n * 2 ^ (52 - n.log2) < 2 ^ 53 ∧ ∃ h,
      round Format.binary64 .positive n 0 =
        .finite .positive (n * 2 ^ (52 - n.log2)) ((n.log2 : ℤ) - 52) h :=
    round_room .positive positive (by omega) (by omega)
  have full : 2 ^ 52 ≤ n * 2 ^ (52 - n.log2) := by
    apply (Nat.le_log2 h.ne').1
    rw [log2_mul_two_pow positive]
    omega
  have proper : Proper (n * 2 ^ (52 - n.log2)) ((n.log2 : ℤ) - 52) :=
    ⟨fits, by omega, .inl full⟩
  have most : (n.log2 : ℤ) - 52 ≤ 971 := by omega
  have whole : n.toUInt64.toFloat.toModel.unpack =
      .finite .positive (n * 2 ^ (52 - n.log2)) ((n.log2 : ℤ) - 52) h := by
    change stored (normalize Format.binary64 (n.toUInt64.toNat : ℤ) 0 .positive) = _
    rw [same, normalize_pos _ (by omega), Int.toNat_natCast, rounded]
    exact (unpack_pack _ h proper).trans (if_pos most)
  refine ⟨h, ?_⟩
  rw [product]
  change stored (UnpackedFloat.mul Format.binary64 n.toUInt64.toFloat.toModel.unpack
    (Float.ofBits 0x3FF0000000000000).toModel.unpack) = _
  rw [whole]
  exact mul_one_stored proper most

theorem ofNat_zero_unpack : (Float.ofNat 0).toModel.unpack = .zero .positive := by
  rfl

/-- Longer whole numbers are rounded, to a double or to infinity. -/
private theorem isNaN_ofNat_large (large : 2 ^ 53 ≤ n) : (Float.ofNat n).isNaN = false := by
  have positive : 0 < n := (Nat.two_pow_pos 53).trans_le large
  have shifted : 0 < n * 2 ^ 53 := Nat.mul_pos positive (Nat.two_pow_pos 53)
  have whole : Float.ofNat n = Float.ofModel (Float.Model.ofScientific n 0) :=
    dif_neg fun fits => Nat.not_lt.2 large fits.1
  have long : 106 ≤ (n * 2 ^ 53).log2 := by
    rw [log2_mul_two_pow positive]
    have := (Nat.le_log2 positive.ne').2 large
    omega
  have product : UnpackedFloat.ofScientific Format.binary64 n 0 =
      round Format.binary64 .positive (n * 2 ^ 53) (-53) := by
    have top : ¬(0 : ℤ) > 2 ^ Format.binary64.exponentBits := by decide
    have bottom : ¬(0 : ℤ) < -(2 ^ Format.binary64.exponentBits + (n.log2 : ℤ)) := by
      have : (0 : ℤ) ≤ 2 ^ Format.binary64.exponentBits := by decide
      omega
    have kept : ((-53 : ℤ) - max (((n * 2 ^ 53).log2 : ℤ) + -53 - 52) (-1074)).toNat = 0 := by
      omega
    unfold UnpackedFloat.ofScientific UnpackedFloat.mul UnpackedFloat.round decreaseExponent
    rw [dif_neg positive.ne', if_neg top, if_neg bottom, if_pos le_rfl]
    dsimp only
    rw [targetExponent_eq, kept, Nat.shiftLeft_eq, Nat.shiftLeft_zero]
    change roundWithAccuracy _ _ (n * 2 ^ 53 * 1) _ _ = _
    rw [Nat.mul_one]
    rfl
  obtain ⟨m, e, h, rounded, proper, _⟩ := round_between .positive shifted
    (show (-1074 : ℤ) ≤ -53 by decide)
  rw [whole]
  change (stored (UnpackedFloat.ofScientific Format.binary64 n 0)).isNaN = false
  rw [product, rounded]
  unfold stored
  rw [unpack_pack _ h proper]
  split <;> rfl

theorem isNaN_ofNat (n : ℕ) : (Float.ofNat n).isNaN = false := by
  obtain large | small := le_or_gt (2 ^ 53) n
  · exact isNaN_ofNat_large large
  change (Float.ofNat n).toModel.unpack.isNaN = false
  obtain rfl | positive := n.eq_zero_or_pos
  · rw [ofNat_zero_unpack]
    rfl
  · obtain ⟨h, unpacked⟩ := ofNat_unpack positive small
    rw [unpacked]
    rfl

/-- Whole numbers keep their order. -/
theorem ofNat_lt (less : m < n) (small : n < 2 ^ 53) : Float.ofNat m < Float.ofNat n := by
  refine lt_iff.2 ⟨isNaN_ofNat m, isNaN_ofNat n, ?_⟩
  obtain ⟨h', unpacked'⟩ := ofNat_unpack (Nat.zero_lt_of_lt less) small
  rw [unpacked']
  obtain rfl | positive := m.eq_zero_or_pos
  · rw [ofNat_zero_unpack]
    exact Prod.Lex.toLex_lt_toLex.2 (.inl (Int.zero_lt_one))
  · obtain ⟨h, unpacked⟩ := ofNat_unpack positive (less.trans small)
    rw [unpacked]
    refine Prod.Lex.toLex_lt_toLex.2 (.inr ⟨rfl, Prod.Lex.toLex_lt_toLex.2 ?_⟩)
    have longer : m.log2 ≤ n.log2 :=
      (Nat.le_log2 (Nat.ne_zero_of_lt less)).2 ((Nat.log2_self_le positive.ne').trans less.le)
    obtain shorter | same := longer.lt_or_eq
    · left
      change (m.log2 : ℤ) - 52 < n.log2 - 52
      omega
    · right
      rw [same]
      refine ⟨rfl, ?_⟩
      change ((m * 2 ^ (52 - n.log2) : ℕ) : ℤ) < (n * 2 ^ (52 - n.log2) : ℕ)
      exact Int.ofNat_lt.2 (Nat.mul_lt_mul_of_pos_right less (Nat.two_pow_pos _))

end

end BranchCutPrice.Double
