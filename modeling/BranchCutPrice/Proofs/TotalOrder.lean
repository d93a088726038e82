import BranchCutPrice.Proofs.Rounding

/-!
The total order on doubles. The place of a double in it is read off the bits, where the sign stands
above the magnitude. Among defined doubles it is the order of their values, except that it tells
the two zeros apart.
-/

open Float.Model Float.Model.UnpackedFloat

namespace BranchCutPrice.Double

/-- The place of a value of this magnitude. The places below zero count down from `-1`. -/
def signed : Sign → ℤ → ℤ
  | .positive, magnitude => magnitude
  | .negative, magnitude => -1 - magnitude

/-- The place in the total order, with the magnitude as it stands in the bits. -/
def station : UnpackedFloat → ℤ
  | .notANumber => 0
  | .infinity s => signed s (2047 * 2 ^ 52)
  | .zero s => signed s 0
  | .finite s mantissa exponent _ => signed s ((exponent + 1074) * 2 ^ 52 + mantissa)

/-! ### Bits -/

section Bits

variable (bits : BitVec Format.binary64.numBits)

private theorem signed_unpack : signed (Sign.ofBitVec (unpackSign bits)) (bits.toNat % 2 ^ 63) =
    if bits.toNat < 2 ^ 63 then (bits.toNat : ℤ) else 2 ^ 63 - 1 - bits.toNat := by
  have sign : (unpackSign bits).toNat = bits.toNat / 2 ^ 63 % 2 := by
    simp [unpackSign, BitVec.extractLsb_toNat, Nat.shiftRight_eq_div_pow]
  have bound : bits.toNat < 2 ^ 64 := bits.isLt
  unfold Sign.ofBitVec
  by_cases low : bits.toNat < 2 ^ 63
  · have zero : unpackSign bits = 0#1 := by
      apply BitVec.eq_of_toNat_eq
      rw [sign, BitVec.toNat_zero]
      omega
    rw [if_pos zero, if_pos low]
    simp only [signed]
    omega
  · have nonzero : unpackSign bits ≠ 0#1 := by
      intro zero
      rw [zero, BitVec.toNat_zero] at sign
      omega
    rw [if_neg nonzero, if_neg low]
    simp only [signed]
    omega

theorem station_unpack (defined : (UnpackedFloat.unpack Format.binary64 bits).isNaN = false) :
    station (UnpackedFloat.unpack Format.binary64 bits) =
      if bits.toNat < 2 ^ 63 then (bits.toNat : ℤ) else 2 ^ 63 - 1 - bits.toNat := by
  have mantissa : (unpackMantissa bits).toNat = bits.toNat % 2 ^ 52 := by
    simp [unpackMantissa, BitVec.extractLsb_toNat]
  have exponent : (unpackExponent bits).toNat = bits.toNat / 2 ^ 52 % 2 ^ 11 := by
    simp [unpackExponent, BitVec.extractLsb_toNat, Nat.shiftRight_eq_div_pow]
  have whole := append_toNat (unpackMantissa bits)
  have bias : (Format.binary64.exponentBias : ℤ) + (52 : ℕ) = 1075 := by
    decide
  rw [← signed_unpack]
  unfold UnpackedFloat.unpack at defined ⊢
  dsimp only at defined ⊢
  split
  · rename_i top
    have largest : (unpackExponent bits).toNat = 2047 := congrArg BitVec.toNat top
    rw [if_pos top] at defined
    split
    · rename_i none
      have zero : (unpackMantissa bits).toNat = 0 := congrArg BitVec.toNat none
      change signed _ _ = _
      congr 1
      omega
    · rename_i some
      rw [if_neg some] at defined
      cases defined
  · split
    · rename_i bottom
      have least : (unpackExponent bits).toNat = 0 := congrArg BitVec.toNat bottom
      split
      · rename_i none
        have zero : (unpackMantissa bits).toNat = 0 := congrArg BitVec.toNat none
        change signed _ _ = _
        congr 1
        omega
      · change signed _ _ = _
        congr 1
        omega
    · change signed _ _ = _
      congr 1
      omega

end Bits

/-- The place of a defined double is the one of its value. -/
theorem rank_eq {a : Float} (defined : a.isNaN = false) :
    rank (.ofFloat a) = station a.toModel.unpack :=
  (station_unpack a.toModel.toBits.toBitVec defined).symm

/-! ### Values -/

section Values

variable {u v : UnpackedFloat}

/-- What a double is unpacked as: a finite one is proper, and its exponent is bounded. -/
def Storable : UnpackedFloat → Prop
  | .finite _ m e _ => (m < 2 ^ 53 ∧ -1074 ≤ e ∧ (2 ^ 52 ≤ m ∨ e = -1074)) ∧ e ≤ 971
  | _ => True

theorem storable_unpack (bits : BitVec Format.binary64.numBits) :
    Storable (UnpackedFloat.unpack Format.binary64 bits) := by
  cases unpacked : UnpackedFloat.unpack Format.binary64 bits with
  | finite s m e h =>
    obtain ⟨proper, most⟩ := unpack_proper unpacked
    exact ⟨⟨proper.short, proper.least, proper.full⟩, most⟩
  | _ => exact trivial

/-- Values come in the order of their places. -/
theorem place_le_of_station_le (storable : Storable u) (storable' : Storable v)
    (defined : u.isNaN = false) (defined' : v.isNaN = false) (below : station u ≤ station v) :
    place u ≤ place v := by
  rcases u with ⟨⟨⟩⟩ | _ | ⟨⟨⟩⟩ | ⟨⟨⟩, m, e, h⟩ <;>
    rcases v with ⟨⟨⟩⟩ | _ | ⟨⟨⟩⟩ | ⟨⟨⟩, m', e', h'⟩ <;>
    first
    | cases defined
      done
    | cases defined'
      done
    | simp only [place, Prod.Lex.toLex_le_toLex, true_and]
      simp only [Storable, station, signed] at storable storable' below
      omega

end Values

theorem le_of_rank_le {a b : Float} (defined : a.isNaN = false) (defined' : b.isNaN = false)
    (below : rank (.ofFloat a) ≤ rank (.ofFloat b)) : a ≤ b := by
  rw [rank_eq defined, rank_eq defined'] at below
  refine le_iff.2 ⟨defined, defined', ?_⟩
  exact place_le_of_station_le (storable_unpack _) (storable_unpack _) defined defined' below

end BranchCutPrice.Double
