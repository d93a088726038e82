import BranchCutPrice.Proofs.Doubles
import Mathlib

open Float.Model Float.Model.UnpackedFloat

namespace BranchCutPrice.Double

/-- A mantissa and an exponent as a double stores them: with all its bits, unless the
exponent is the least one. -/
structure Proper (mantissa : ℕ) (exponent : ℤ) : Prop where
  short : mantissa < 2 ^ 53
  least : -1074 ≤ exponent
  full : 2 ^ 52 ≤ mantissa ∨ exponent = -1074

theorem targetExponent_eq (mantissa : ℕ) (exponent : ℤ) :
    Format.binary64.targetExponent (totalExponent mantissa exponent) =
      max (mantissa.log2 + exponent - 52) (-1074) := by
  simp only [Format.targetExponent, totalExponent, Format.mantissaBits, Format.minExponent]
  norm_num
  omega

/-! ### Rounding -/

/-- Shifting leaves the quotient, and nothing behind it if the division is exact. -/
theorem shift_exact (mantissa count : ℕ) :
    (ExtendedMantissa.mk mantissa false false >>> count).mantissa = mantissa / 2 ^ count ∧
      (2 ^ count ∣ mantissa →
        ExtendedMantissa.mk mantissa false false >>> count =
          ExtendedMantissa.mk (mantissa / 2 ^ count) false false) := by
  induction count with
  | zero =>
    exact ⟨(Nat.div_one mantissa).symm, fun _ => by simp [HShiftRight.hShiftRight, Nat.repeat]⟩
  | succ count ih =>
    obtain ⟨quotient, exact⟩ := ih
    have step : ExtendedMantissa.mk mantissa false false >>> (count + 1) =
        (ExtendedMantissa.mk mantissa false false >>> count).shiftRightOne := rfl
    have twice : mantissa / 2 ^ (count + 1) = mantissa / 2 ^ count / 2 := by
      rw [Nat.div_div_eq_div_mul, Nat.pow_succ]
    refine ⟨?_, fun divides => ?_⟩
    · rw [step, twice]
      exact congrArg (· / 2) quotient
    · have half : 2 ^ count ∣ mantissa := (Nat.pow_dvd_pow 2 (Nat.le_succ count)).trans divides
      have even : mantissa / 2 ^ count % 2 = 0 := by
        obtain ⟨factor, rfl⟩ := divides
        rw [Nat.pow_succ, Nat.mul_assoc, Nat.mul_div_cancel_left _ (Nat.two_pow_pos count)]
        exact Nat.mul_mod_right 2 factor
      rw [step, exact half, twice]
      simp [ExtendedMantissa.shiftRightOne, even]

theorem roundedMantissa_le (em : ExtendedMantissa) :
    em.mantissa ≤ em.roundedMantissa ∧ em.roundedMantissa ≤ em.mantissa + 1 := by
  obtain ⟨mantissa, round, sticky⟩ := em
  cases round <;> cases sticky <;>
    simp [ExtendedMantissa.roundedMantissa, ExtendedMantissa.accuracy, Accuracy.roundToNearestEven]
  omega

/-- A quotient is rounded to one of its neighbours, and kept if it is exact. -/
theorem rounded_shift (mantissa count : ℕ) :
    ∃ rounded, (ExtendedMantissa.mk mantissa false false >>> count).roundedMantissa = rounded ∧
      (∀ x, x * 2 ^ count ≤ mantissa → x ≤ rounded) ∧
      ∀ x, mantissa ≤ x * 2 ^ count → rounded ≤ x := by
  obtain ⟨quotient, exact⟩ := shift_exact mantissa count
  obtain ⟨above, below⟩ := roundedMantissa_le (ExtendedMantissa.mk mantissa false false >>> count)
  rw [quotient] at above below
  refine ⟨_, rfl, fun x small => ?_, fun x large => ?_⟩
  · exact ((Nat.le_div_iff_mul_le (Nat.two_pow_pos count)).2 small).trans above
  · by_cases divides : 2 ^ count ∣ mantissa
    · rw [exact divides]
      change mantissa / 2 ^ count ≤ x
      exact Nat.div_le_of_le_mul (by rwa [Nat.mul_comm] at large)
    · have strict : mantissa < x * 2 ^ count := by
        apply lt_of_le_of_ne large
        rintro rfl
        exact divides (Nat.dvd_mul_left _ _)
      have quotientLt := (Nat.div_lt_iff_lt_mul (Nat.two_pow_pos count)).2 strict
      omega

/-- A rounded mantissa that became too long is halved. -/
theorem shift_again {mantissa : ℕ} {exponent : ℤ} (bound : mantissa ≤ 2 ^ 53)
    (least : -1074 ≤ exponent) :
    shiftToTargetExponent Format.binary64 mantissa exponent .exact =
      if mantissa = 2 ^ 53 then (⟨2 ^ 52, false, false⟩, exponent + 1)
      else (⟨mantissa, false, false⟩, exponent) := by
  unfold shiftToTargetExponent shiftToExponent
  dsimp only
  rw [targetExponent_eq]
  split
  · rename_i long
    rw [long, Nat.log2_two_pow]
    have one : (max ((53 : ℕ) + exponent - 52) (-1074) - exponent).toNat = 1 := by omega
    rw [one]
    rfl
  · have short : mantissa.log2 ≤ 52 := by
      by_cases zero : mantissa = 0
      · simp [zero]
      · have := (Nat.log2_lt zero).2 (show mantissa < 2 ^ 53 by omega)
        omega
    have none : (max (mantissa.log2 + exponent - 52) (-1074) - exponent).toNat = 0 := by omega
    rw [none]
    simp [HShiftRight.hShiftRight, Nat.repeat, ExtendedMantissa.ofMantissaAndAccuracy]

theorem log2_mul_two_pow {n : ℕ} (positive : 0 < n) (k : ℕ) : (n * 2 ^ k).log2 = n.log2 + k := by
  rw [Nat.log2_eq_iff (Nat.mul_ne_zero positive.ne' (Nat.two_pow_pos k).ne')]
  obtain ⟨low, high⟩ := (Nat.log2_eq_iff positive.ne').1 rfl
  constructor
  · rw [Nat.pow_add]
    exact Nat.mul_le_mul_right _ low
  · rw [Nat.add_right_comm, Nat.pow_add]
    exact Nat.mul_lt_mul_of_pos_right high (Nat.two_pow_pos k)

/-- What a rounded mantissa stands for once it fits. -/
theorem roundWithAccuracy_cases (s : Sign) {mantissa rounded : ℕ} {exponent target : ℤ}
    (shifted : (ExtendedMantissa.mk mantissa false false >>>
      (max (mantissa.log2 + exponent - 52) (-1074) - exponent).toNat).roundedMantissa = rounded)
    (reached : exponent + (max (mantissa.log2 + exponent - 52) (-1074) - exponent).toNat = target)
    (positive : 0 < rounded) (bound : rounded ≤ 2 ^ 53) (least : -1074 ≤ target) :
    ∃ m e h, roundWithAccuracy Format.binary64 s mantissa exponent .exact = .finite s m e h ∧
      (rounded = 2 ^ 53 ∧ m = 2 ^ 52 ∧ e = target + 1 ∨
        rounded < 2 ^ 53 ∧ m = rounded ∧ e = target) := by
  have first : shiftToTargetExponent Format.binary64 mantissa exponent .exact =
      (ExtendedMantissa.mk mantissa false false >>>
        (max (mantissa.log2 + exponent - 52) (-1074) - exponent).toNat, target) := by
    unfold shiftToTargetExponent shiftToExponent
    rw [targetExponent_eq]
    exact Prod.ext rfl reached
  unfold roundWithAccuracy
  rw [first]
  dsimp only
  rw [shifted, shift_again bound least]
  by_cases long : rounded = 2 ^ 53
  · have full : (0 : ℕ) < 2 ^ 52 := Nat.two_pow_pos 52
    rw [if_pos long]
    exact ⟨_, _, full, dif_neg (Nat.ne_of_gt full), .inl ⟨long, rfl, rfl⟩⟩
  · rw [if_neg long]
    exact ⟨_, _, positive, dif_neg (Nat.ne_of_gt positive), .inr ⟨by omega, rfl, rfl⟩⟩

/-- Nothing is rounded where there is room for all bits. -/
theorem round_room (s : Sign) {mantissa count : ℕ} (positive : 0 < mantissa) {exponent target : ℤ}
    (target_eq : max (mantissa.log2 + exponent - 52) (-1074) = target)
    (gap : exponent = target + count) :
    mantissa * 2 ^ count < 2 ^ 53 ∧ ∃ h, round Format.binary64 s mantissa exponent =
      .finite s (mantissa * 2 ^ count) target h := by
  have long := log2_mul_two_pow positive count
  have whole : 0 < mantissa * 2 ^ count := Nat.mul_pos positive (Nat.two_pow_pos count)
  have fits : mantissa * 2 ^ count < 2 ^ 53 := by
    apply (Nat.log2_lt whole.ne').1
    omega
  have still : (max (((mantissa * 2 ^ count).log2 : ℤ) + target - 52) (-1074) -
      target).toNat = 0 := by omega
  have shifted : (ExtendedMantissa.mk (mantissa * 2 ^ count) false false >>>
      (max (((mantissa * 2 ^ count).log2 : ℤ) + target - 52) (-1074) -
        target).toNat).roundedMantissa = mantissa * 2 ^ count := by
    rw [still]
    rfl
  obtain ⟨m, e, h, rounded, final⟩ :=
    roundWithAccuracy_cases s shifted (by omega : _ = target) whole fits.le (by omega)
  obtain ⟨long, _⟩ | ⟨_, rfl, rfl⟩ := final
  · omega
  · refine ⟨fits, h, ?_⟩
    unfold UnpackedFloat.round decreaseExponent
    dsimp only
    rw [targetExponent_eq, target_eq, Nat.shiftLeft_eq, show (exponent - e).toNat = count by omega,
      gap, Int.add_sub_cancel]
    exact rounded

/-- The first stage of rounding: to the exponent that leaves 53 bits, or the least one. -/
theorem round_cases (s : Sign) {mantissa : ℕ} (positive : 0 < mantissa) {exponent : ℤ}
    (least : -1074 ≤ exponent) :
    ∃ rounded target, target = max (mantissa.log2 + exponent - 52) (-1074) ∧
      (2 ^ 52 ≤ rounded ∨ target = -1074) ∧
      (exponent ≤ target →
        (∀ x, x * 2 ^ (target - exponent).toNat ≤ mantissa → x ≤ rounded) ∧
        ∀ x, mantissa ≤ x * 2 ^ (target - exponent).toNat → rounded ≤ x) ∧
      ∃ m e h, round Format.binary64 s mantissa exponent = .finite s m e h ∧
        (rounded = 2 ^ 53 ∧ m = 2 ^ 52 ∧ e = target + 1 ∨
          rounded < 2 ^ 53 ∧ m = rounded ∧ e = target) := by
  obtain ⟨low, high⟩ := (Nat.log2_eq_iff positive.ne').1 rfl
  generalize target_eq : max (mantissa.log2 + exponent - 52) (-1074) = target
  by_cases room : target ≤ exponent
  · obtain ⟨count, gap⟩ : ∃ count : ℕ, exponent = target + count :=
      ⟨(exponent - target).toNat, by omega⟩
    obtain ⟨fits, h, exact⟩ := round_room s positive target_eq gap
    refine ⟨mantissa * 2 ^ count, target, rfl, ?_, fun tight => ?_,
      _, _, h, exact, .inr ⟨fits, rfl, rfl⟩⟩
    · by_cases least' : target = -1074
      · exact .inr least'
      · left
        have long := log2_mul_two_pow positive count
        apply (Nat.le_log2 (Nat.mul_pos positive (Nat.two_pow_pos count)).ne').1
        omega
    · have none : count = 0 := by omega
      subst none
      rw [gap]
      simp
  · obtain ⟨count, gap⟩ : ∃ count : ℕ, target = exponent + count :=
      ⟨(target - exponent).toNat, by omega⟩
    have shift : (exponent - target).toNat = 0 := by omega
    have long : mantissa.log2 = 52 + count := by omega
    obtain ⟨rounded, rounded_eq, atLeast, atMost⟩ := rounded_shift mantissa count
    rw [long] at low high
    have lower : 2 ^ 52 ≤ rounded := atLeast _ (by rwa [← Nat.pow_add])
    have upper : rounded ≤ 2 ^ 53 := by
      apply atMost
      rw [← Nat.pow_add]
      exact high.le.trans (Nat.pow_le_pow_right Nat.two_pos (by omega))
    unfold UnpackedFloat.round decreaseExponent
    dsimp only
    rw [targetExponent_eq, target_eq, Nat.shiftLeft_eq, shift, gap, Nat.pow_zero, Nat.mul_one,
      Int.natCast_zero, Int.sub_zero]
    refine ⟨rounded, exponent + count, rfl, .inl lower, fun _ => ?_, ?_⟩
    · rw [show (exponent + count - exponent).toNat = count by omega]
      exact ⟨atLeast, atMost⟩
    · have moved : (max ((mantissa.log2 : ℤ) + exponent - 52) (-1074) - exponent).toNat =
          count := by omega
      apply roundWithAccuracy_cases
      · rw [moved]
        exact rounded_eq
      · rw [moved]
      · omega
      · exact upper
      · omega

/-- Doubles of one sign are compared by their exponents first. -/
def Below (m : ℕ) (e : ℤ) (m' : ℕ) (e' : ℤ) : Prop :=
  e < e' ∨ e = e' ∧ m ≤ m'

/-- Rounding does not pass over a double. -/
theorem round_between (s : Sign) {mantissa : ℕ} (positive : 0 < mantissa) {exponent : ℤ}
    (least : -1074 ≤ exponent) :
    ∃ m e h, round Format.binary64 s mantissa exponent = .finite s m e h ∧ Proper m e ∧
      ∀ m' e', Proper m' e' → exponent ≤ e' →
        (m' * 2 ^ (e' - exponent).toNat ≤ mantissa → Below m' e' m e) ∧
        (mantissa ≤ m' * 2 ^ (e' - exponent).toNat → Below m e m' e') := by
  obtain ⟨low, high⟩ := (Nat.log2_eq_iff positive.ne').1 rfl
  obtain ⟨rounded, target, target_eq, full, between, m, e, h, rounded_eq, final⟩ :=
    round_cases s positive least
  refine ⟨m, e, h, rounded_eq, ?_, fun m' e' proper inside => ⟨fun small => ?_, fun large => ?_⟩⟩
  · obtain ⟨_, rfl, rfl⟩ | ⟨short, rfl, rfl⟩ := final
    · exact ⟨by decide, by omega, .inl (Nat.le_refl _)⟩
    · exact ⟨short, by omega, full⟩
  · have reached : e' ≤ target := by
      obtain long | bottom := proper.full
      · have bits : 2 ^ (52 + (e' - exponent).toNat) ≤ mantissa := by
          rw [Nat.pow_add]
          exact (Nat.mul_le_mul_right _ long).trans small
        have := (Nat.le_log2 positive.ne').2 bits
        omega
      · omega
    obtain before | rfl := reached.lt_or_eq
    · left
      omega
    · have := (between inside).1 m' small
      unfold Below
      omega
  · have reached : target ≤ e' := by
      by_contra beyond
      have bits : mantissa < 2 ^ (53 + (e' - exponent).toNat) := by
        rw [Nat.pow_add]
        exact large.trans_lt (Nat.mul_lt_mul_of_pos_right proper.short (Nat.two_pow_pos _))
      have := (Nat.log2_lt positive.ne').2 bits
      have := proper.least
      omega
    obtain before | rfl := reached.lt_or_eq
    · have long := proper.full
      unfold Below
      omega
    · have := (between inside).2 m' large
      have := proper.short
      unfold Below
      omega

/-! ### Packing -/

section Packing

variable {m : ℕ} {e : ℤ}

theorem append_toNat (mantissa : BitVec 52) :
    (1#1 ++ mantissa).toNat = 2 ^ 52 + mantissa.toNat := by
  rw [BitVec.toNat_append, ← Nat.shiftLeft_add_eq_or_of_lt mantissa.isLt]
  rfl

private theorem bias_eq : (Format.binary64.exponentBias : ℤ) + (52 : ℕ) = 1075 := by
  decide

/-- A finite double is proper, and its exponent is bounded. -/
theorem unpack_proper {bits : BitVec Format.binary64.numBits} {s : Sign} {h : 0 < m}
    (unpacked : UnpackedFloat.unpack Format.binary64 bits = .finite s m e h) :
    Proper m e ∧ e ≤ 971 := by
  unfold UnpackedFloat.unpack at unpacked
  dsimp only at unpacked
  have short : (unpackMantissa bits).toNat < 2 ^ 52 := (unpackMantissa bits).isLt
  have bias := bias_eq
  split at unpacked
  · split at unpacked <;> cases unpacked
  · rename_i finite
    split at unpacked
    · rename_i least
      split at unpacked
      · cases unpacked
      · cases unpacked
        have zero : (unpackExponent bits).toNat = 0 := congrArg BitVec.toNat least
        exact ⟨⟨by omega, by omega, .inr (by omega)⟩, by omega⟩
    · rename_i normal
      cases unpacked
      have positive : (unpackExponent bits).toNat ≠ 0 := fun zero =>
        normal (BitVec.eq_of_toNat_eq zero)
      have below : (unpackExponent bits).toNat ≠ 2047 := fun top =>
        finite (BitVec.eq_of_toNat_eq top)
      have bound : (unpackExponent bits).toNat < 2 ^ 11 := (unpackExponent bits).isLt
      have whole := append_toNat (unpackMantissa bits)
      exact ⟨⟨by omega, by omega, .inl (by omega)⟩, by omega⟩

private theorem unpack_normal (s : Sign) (h : 0 < m) (long : 2 ^ 52 ≤ m) (short : m < 2 ^ 53)
    (least : -1074 ≤ e) (most : e ≤ 971) :
    UnpackedFloat.unpack Format.binary64 (packComponents Format.binary64 s
      (BitVec.ofNat 11 (e + 1075).toNat) (BitVec.ofNat 52 m)) = .finite s m e h := by
  have exponent : (BitVec.ofNat 11 (e + 1075).toNat).toNat = (e + 1075).toNat := by
    rw [BitVec.toNat_ofNat, Nat.mod_eq_of_lt (by omega)]
  have finite : BitVec.ofNat 11 (e + 1075).toNat ≠ -1#11 := by
    intro top
    have same := congrArg BitVec.toNat top
    rw [exponent, show (-1#11).toNat = 2047 by decide] at same
    omega
  have normal : BitVec.ofNat 11 (e + 1075).toNat ≠ 0#11 := by
    intro zero
    have same := congrArg BitVec.toNat zero
    rw [exponent, BitVec.toNat_zero] at same
    omega
  have mantissa : (1#1 ++ BitVec.ofNat 52 m).toNat = m := by
    rw [append_toNat, BitVec.toNat_ofNat]
    omega
  unfold UnpackedFloat.unpack
  simp only [unpackMantissa_packComponents, unpackExponent_packComponents,
    unpackSign_packComponents, Sign.ofBitVec_toBitVec, finite, normal, if_false, exponent,
    mantissa]
  congr 1
  have bias := bias_eq
  omega

private theorem unpack_subnormal (s : Sign) (h : 0 < m) (short : m < 2 ^ 52) :
    UnpackedFloat.unpack Format.binary64 (packComponents Format.binary64 s 0#11
      (BitVec.ofNat 52 m)) = .finite s m (-1074) h := by
  have mantissa : (BitVec.ofNat 52 m).toNat = m := by
    rw [BitVec.toNat_ofNat, Nat.mod_eq_of_lt (by omega)]
  have nonzero : BitVec.ofNat 52 m ≠ 0#52 := by
    intro zero
    have same := congrArg BitVec.toNat zero
    rw [mantissa, BitVec.toNat_zero] at same
    omega
  have finite : 0#11 ≠ -1#11 := by decide
  unfold UnpackedFloat.unpack
  simp only [unpackMantissa_packComponents, unpackExponent_packComponents,
    unpackSign_packComponents, Sign.ofBitVec_toBitVec, finite, nonzero, if_false, if_true,
    dite_false, mantissa]
  congr 1

/-- A finite double is unpacked as it was packed, unless its exponent is too large. -/
theorem unpack_pack (s : Sign) (h : 0 < m) (proper : Proper m e) :
    UnpackedFloat.unpack Format.binary64 (UnpackedFloat.pack Format.binary64 (.finite s m e h)) =
      if e ≤ 971 then .finite s m e h else .infinity s := by
  have bias : e + (Format.binary64.exponentBias : ℤ) + (52 : ℕ) = e + 1075 := by
    rw [Int.add_assoc, bias_eq]
  have width : Format.binary64.mantissaBits = 53 := rfl
  have least := proper.least
  unfold UnpackedFloat.pack packedInfinity
  dsimp only
  rw [bias, width]
  by_cases fits : e ≤ 971
  · rw [if_neg (by omega), if_pos fits]
    by_cases long : 2 ^ 52 ≤ m
    · have bits : m.log2 + 1 = 53 := by
        have := (Nat.le_log2 h.ne').2 long
        have := (Nat.log2_lt h.ne').2 proper.short
        omega
      rw [if_pos bits]
      exact unpack_normal s h long proper.short least fits
    · have bits : m.log2 + 1 ≠ 53 := by
        have := (Nat.log2_lt h.ne').2 (Nat.lt_of_not_le long)
        omega
      obtain rfl := proper.full.resolve_left long
      rw [if_neg bits]
      exact unpack_subnormal s h (Nat.lt_of_not_le long)
  · rw [if_pos (by omega), if_neg fits]
    unfold UnpackedFloat.unpack
    simp

end Packing

/-! ### Differences -/

/-- What a result is once it is stored as a double. -/
def stored (u : UnpackedFloat) : UnpackedFloat :=
  UnpackedFloat.unpack Format.binary64 (UnpackedFloat.pack Format.binary64 u)

/-- A result is stored as a double that is at most another one. -/
def AtMost (u v : UnpackedFloat) : Prop :=
  (stored u).isNaN = false ∧ place (stored u) ≤ place v

private theorem negative_atMost {m m' : ℕ} {e e' : ℤ} {h : 0 < m} {h' : 0 < m'}
    (proper : Proper m' e') (below : Below m e m' e') :
    AtMost (.finite .negative m' e' h') (.finite .negative m e h) := by
  unfold AtMost stored
  rw [unpack_pack _ h' proper]
  split
  · refine ⟨rfl, Prod.Lex.toLex_le_toLex.2 (.inr ⟨rfl, Prod.Lex.toLex_le_toLex.2 ?_⟩)⟩
    unfold Below at below
    dsimp only
    omega
  · refine ⟨rfl, Prod.Lex.toLex_le_toLex.2 (.inl ?_)⟩
    change (-2 : ℤ) < -1
    decide

private theorem positive_atMost {m m' : ℕ} {e e' : ℤ} {h : 0 < m} {h' : 0 < m'}
    (proper : Proper m' e') (below : Below m' e' m e) (most : e ≤ 971) :
    AtMost (.finite .positive m' e' h') (.finite .positive m e h) := by
  have fits : e' ≤ 971 := by
    unfold Below at below
    omega
  unfold AtMost stored
  rw [unpack_pack _ h' proper, if_pos fits]
  refine ⟨rfl, Prod.Lex.toLex_le_toLex.2 (.inr ⟨rfl, Prod.Lex.toLex_le_toLex.2 ?_⟩)⟩
  unfold Below at below
  dsimp only
  omega

/-- A negative number is stored below every double that is not negative. -/
private theorem negative_atMost_of_nonneg {m' : ℕ} {e' : ℤ} {h' : 0 < m'} {v : UnpackedFloat}
    (proper : Proper m' e') (nonneg : 0 ≤ (ofLex (place v)).1) :
    AtMost (.finite .negative m' e' h') v := by
  unfold AtMost stored
  rw [unpack_pack _ h' proper]
  split
  · refine ⟨rfl, Prod.Lex.le_iff.2 (.inl ?_)⟩
    change (-1 : ℤ) < _
    omega
  · refine ⟨rfl, Prod.Lex.le_iff.2 (.inl ?_)⟩
    change (-2 : ℤ) < _
    omega

/-- Rounding to a double keeps a number at most another double. -/
theorem normalize_atMost {total exponent : ℤ} (bottom : -1074 ≤ exponent) {s : Sign} {m : ℕ}
    {e : ℤ} (h : 0 < m) (proper : Proper m e) (most : e ≤ 971) (inside : exponent ≤ e)
    (bound : total ≤ s.apply (m * 2 ^ (e - exponent).toNat : ℕ)) :
    AtMost (normalize Format.binary64 total exponent .positive) (.finite s m e h) := by
  have full : 0 < m * 2 ^ (e - exponent).toNat := Nat.mul_pos h (Nat.two_pow_pos _)
  obtain less | rfl | more := lt_trichotomy total 0
  · have magnitude : 0 < (-total).toNat := by omega
    obtain ⟨m', e', h', rounded, proper', between⟩ := round_between .negative magnitude bottom
    rw [normalize_neg _ less, rounded]
    cases s with
    | negative =>
      change total ≤ -((m * 2 ^ (e - exponent).toNat : ℕ) : ℤ) at bound
      exact negative_atMost proper' ((between m e proper inside).1 (by omega))
    | positive => exact negative_atMost_of_nonneg proper' Int.one_nonneg
  · cases s with
    | negative =>
      change 0 ≤ -((m * 2 ^ (e - exponent).toNat : ℕ) : ℤ) at bound
      omega
    | positive =>
      rw [normalize_zero]
      refine ⟨rfl, Prod.Lex.toLex_le_toLex.2 (.inl ?_)⟩
      change (0 : ℤ) < 1
      decide
  · have magnitude : 0 < total.toNat := by omega
    obtain ⟨m', e', h', rounded, proper', between⟩ := round_between .positive magnitude bottom
    rw [normalize_pos _ more, rounded]
    cases s with
    | negative =>
      change total ≤ -((m * 2 ^ (e - exponent).toNat : ℕ) : ℤ) at bound
      omega
    | positive =>
      change total ≤ ((m * 2 ^ (e - exponent).toNat : ℕ) : ℤ) at bound
      exact positive_atMost proper' ((between m e proper inside).2 (by omega)) most

/-- Subtracting a positive number does not lead above. -/
theorem sub_atMost {u : UnpackedFloat} {m : ℕ} {e : ℤ} (h : 0 < m) (proper : Proper m e)
    (defined : u.isNaN = false)
    (finite : ∀ s m' e' h', u = .finite s m' e' h' → Proper m' e' ∧ e' ≤ 971) :
    AtMost (UnpackedFloat.sub Format.binary64 u (.finite .positive m e h)) u := by
  cases u with
  | notANumber => cases defined
  | infinity s =>
    have whole : stored (.infinity s) = .infinity s := by cases s <;> rfl
    change (stored (.infinity s)).isNaN = false ∧ place (stored (.infinity s)) ≤ _
    rw [whole]
    exact ⟨rfl, le_rfl⟩
  | zero s => exact negative_atMost_of_nonneg proper (Int.le_refl 0)
  | finite s m' e' h' =>
    obtain ⟨proper', most⟩ := finite s m' e' h' rfl
    have bottom : -1074 ≤ min e' e := le_min proper'.least proper.least
    unfold UnpackedFloat.sub decreaseExponent
    dsimp only
    rw [Nat.shiftLeft_eq, Nat.shiftLeft_eq]
    apply normalize_atMost bottom h' proper' most (min_le_left e' e)
    exact Int.sub_le_self _ (Int.natCast_nonneg _)

theorem sub_slack_le {x : Float} (defined : x.isNaN = false) : x - boundSlack ≤ x := by
  have slack : boundSlack.toModel.unpack =
      .finite .positive 4835703278458517 (-82) (by decide) := by
    rfl
  have fallen := sub_atMost (by decide) (unpack_proper slack).1 defined
    fun _ _ _ _ unpacked => unpack_proper unpacked
  rw [← slack] at fallen
  exact le_iff.2 ⟨fallen.1, defined, fallen.2⟩

end BranchCutPrice.Double
