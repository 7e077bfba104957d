import Mathlib

/-! # Positive quotients in binary64

A whole number converts to a float with a full mantissa, and dividing one full mantissa
by another leaves a full mantissa as long as the exponent stays above the subnormal
range. Rounding therefore never brings such a quotient down to zero. Nothing is said
about the value of the quotient beyond its sign.
-/

namespace VanillaRtb.Lib.Binary64

open Float.Model Float.Model.UnpackedFloat

/-- A positive number with a full mantissa and an exponent from `low` up, or infinity. -/
def FullFrom (low : Int) : UnpackedFloat → Prop
  | .infinity .positive => True
  | .finite .positive m e _ => 2 ^ 52 ≤ m ∧ m < 2 ^ 53 ∧ low ≤ e
  | _ => False

theorem FullFrom.mono (full : FullFrom low u) (below : low' ≤ low) : FullFrom low' u := by
  match u, full with
  | .infinity .positive, _ => trivial
  | .finite .positive _ _ _, ⟨wide, narrow, above⟩ => exact ⟨wide, narrow, le_trans below above⟩

theorem log2_of_full (low : 2 ^ 52 ≤ m) (high : m < 2 ^ 53) : m.log2 = 52 := by
  have nonzero : m ≠ 0 := by omega
  have above := (Nat.le_log2 nonzero).mpr low
  have below := (Nat.log2_lt nonzero).mpr high
  omega

private theorem shifted_mantissa (em : ExtendedMantissa) (n : Nat) :
    (em >>> n).mantissa = em.mantissa / 2 ^ n := by
  induction n generalizing em with
  | zero => simp [HShiftRight.hShiftRight, Nat.repeat]
  | succ n ih =>
      change (em >>> n).mantissa / 2 = em.mantissa / 2 ^ (n + 1)
      rw [ih, Nat.div_div_eq_div_mul, Nat.pow_succ]

private theorem rounded_bounds (em : ExtendedMantissa) :
    em.mantissa ≤ em.roundedMantissa ∧ em.roundedMantissa ≤ em.mantissa + 1 := by
  obtain ⟨m, roundBit, stickyBit⟩ := em
  unfold ExtendedMantissa.roundedMantissa ExtendedMantissa.accuracy Accuracy.roundToNearestEven
  cases roundBit <;> cases stickyBit <;> grind

/-- Shifting a mantissa of at least 53 bits leaves exactly 53. -/
private theorem shift_full (acc : Accuracy) (wide : 2 ^ 52 ≤ m) (normal : -1074 ≤ e) :
    2 ^ 52 ≤ (shiftToTargetExponent Format.binary64 m e acc).1.mantissa ∧
      (shiftToTargetExponent Format.binary64 m e acc).1.mantissa < 2 ^ 53 ∧
      e ≤ (shiftToTargetExponent Format.binary64 m e acc).2 := by
  have nonzero : m ≠ 0 := by omega
  have bits := (Nat.le_log2 nonzero).mpr wide
  have amount : (Format.binary64.targetExponent (totalExponent m e) - e).toNat = m.log2 - 52 := by
    simp only [Format.targetExponent, totalExponent, Format.mantissaBits, Format.minExponent]
    omega
  have start : (ExtendedMantissa.ofMantissaAndAccuracy m acc).mantissa = m := by
    unfold ExtendedMantissa.ofMantissaAndAccuracy
    split <;> rfl
  have mantissa : (shiftToTargetExponent Format.binary64 m e acc).1.mantissa =
      m / 2 ^ (m.log2 - 52) := by
    simp only [shiftToTargetExponent, shiftToExponent, shifted_mantissa, start, amount]
  have span : 2 ^ (m.log2 - 52) * 2 ^ 52 = 2 ^ m.log2 := by
    rw [← Nat.pow_add, Nat.sub_add_cancel bits]
  have low := Nat.log2_self_le nonzero
  have high := @Nat.lt_log2_self m
  rw [Nat.pow_succ] at high
  refine ⟨?_, ?_, ?_⟩
  · rw [mantissa, Nat.le_div_iff_mul_le (Nat.two_pow_pos _), Nat.mul_comm, span]
    exact low
  · rw [mantissa, Nat.div_lt_iff_lt_mul (Nat.two_pow_pos _)]
    omega
  · simp only [shiftToTargetExponent, shiftToExponent]
    omega

theorem round_full (acc : Accuracy) (wide : 2 ^ 52 ≤ m) (normal : -1074 ≤ e) :
    FullFrom e (roundWithAccuracy Format.binary64 .positive m e acc) := by
  obtain ⟨low, high, up⟩ := shift_full acc wide normal
  have rounded := rounded_bounds (shiftToTargetExponent Format.binary64 m e acc).1
  -- rounding up may carry into a bit more, which the second shift takes back
  obtain ⟨low', high', up'⟩ := shift_full .exact (le_trans low rounded.1)
    (le_trans normal up)
  unfold roundWithAccuracy
  dsimp only
  rw [dif_neg (by omega)]
  exact ⟨low', high', le_trans up up'⟩

private theorem sign_packed {spec : Format} (sign : Sign) (exponent : BitVec spec.exponentBits)
    (mantissa : BitVec spec.mantissaBitsWithoutImplicit) :
    Sign.ofBitVec (unpackSign (packComponents spec sign exponent mantissa)) = sign := by
  have bit : unpackSign (packComponents spec sign exponent mantissa) = sign.toBitVec := by
    ext i hi
    obtain rfl : i = 0 := by omega
    simp [unpackSign, packComponents, BitVec.getLsbD_append, BitVec.getElem_append]
  rw [bit]
  cases sign <;> rfl

private theorem unpack_infinity :
    UnpackedFloat.unpack Format.binary64 (packedInfinity Format.binary64 .positive) =
      .infinity .positive := by
  simp only [UnpackedFloat.unpack, packedInfinity, unpackExponent_packComponents,
    unpackMantissa_packComponents, sign_packed]
  rfl

/-- An exponent field other than all zeros and all ones makes the mantissa a full one. -/
private theorem unpack_normal {exponent : BitVec 11} (mantissa : BitVec 52)
    (notZeros : exponent ≠ 0#11) (notOnes : exponent ≠ -1#11)
    (above : low ≤ (exponent.toNat : Int) - 1075) :
    FullFrom low (UnpackedFloat.unpack Format.binary64
      (packComponents Format.binary64 .positive exponent mantissa)) := by
  have implicit : (1#1 ++ mantissa).toNat = 2 ^ 52 + mantissa.toNat := by
    rw [BitVec.toNat_append, ← Nat.shiftLeft_add_eq_or_of_lt mantissa.isLt]
    simp [Nat.shiftLeft_eq]
  have narrow := mantissa.isLt
  simp only [UnpackedFloat.unpack, unpackExponent_packComponents, unpackMantissa_packComponents,
    sign_packed, if_neg notZeros, if_neg notOnes, FullFrom, implicit, Format.exponentBias]
  omega

/-- Packing and unpacking keeps a mantissa full, or overflows to infinity. -/
theorem unpack_pack_full (full : FullFrom low u) (normal : -1074 ≤ low) :
    FullFrom low (UnpackedFloat.unpack Format.binary64 (UnpackedFloat.pack Format.binary64 u)) := by
  match u, full with
  | .infinity .positive, _ =>
      rw [UnpackedFloat.pack, unpack_infinity]
      trivial
  | .finite .positive m e _, ⟨wide, narrow, above⟩ =>
      have bits := log2_of_full wide narrow
      unfold UnpackedFloat.pack
      dsimp only
      split
      · rw [unpack_infinity]
        trivial
      · rename_i fits
        have biased : (BitVec.ofNat 11 (e + 1075).toNat).toNat = (e + 1075).toNat := by
          simp only [Format.exponentBias] at fits
          rw [BitVec.toNat_ofNat]
          omega
        rw [if_pos (by rw [bits]; rfl)]
        have field : (e + Format.binary64.exponentBias + (52 : Nat)).toNat = (e + 1075).toNat := by
          simp only [Format.exponentBias]
          omega
        rw [field] at fits ⊢
        apply unpack_normal
        · intro zeros
          have := congrArg BitVec.toNat zeros
          rw [biased, BitVec.toNat_ofNat] at this
          omega
        · intro ones
          have := congrArg BitVec.toNat ones
          rw [biased] at this
          simp at this fits
          omega
        · rw [biased]
          omega

theorem pos_of_full {x : Float} (full : FullFrom low x.toModel.unpack) : 0 < x := by
  apply decide_eq_true
  change (Float.Model.unpack (Float.toModel 0)).lt x.toModel.unpack = true
  have zero : Float.Model.unpack (Float.toModel 0) = .zero .positive := by rfl
  rw [zero]
  match x.toModel.unpack, full with
  | .infinity .positive, _ => rfl
  | .finite .positive _ _ _, _ => rfl

/-- A positive machine integer converts to a full mantissa. -/
theorem toFloat_full (n : UInt64) (nonzero : n ≠ 0) :
    FullFrom (-52) n.toFloat.toModel.unpack := by
  have positive : 0 < n.toNat := by
    apply Nat.pos_of_ne_zero
    intro zero
    exact nonzero (UInt64.toNat_inj.mp zero)
  change FullFrom (-52) (UnpackedFloat.unpack Format.binary64
    (UnpackedFloat.pack Format.binary64 (UnpackedFloat.ofUInt64 Format.binary64 n)))
  apply unpack_pack_full ?_ (by omega)
  have normalized : UnpackedFloat.ofUInt64 Format.binary64 n =
      UnpackedFloat.round Format.binary64 .positive n.toNat 0 := by
    simp only [UnpackedFloat.ofUInt64, UnpackedFloat.ofNat, UnpackedFloat.ofInt,
      UnpackedFloat.normalize]
    have above : compare (n.toNat : Int) 0 = .gt := by
      rw [Int.compare_eq_gt]
      omega
    rw [above]
    rfl
  rw [normalized]
  -- the exponent is lowered until the mantissa has at least 53 bits
  have amount : (0 - Format.binary64.targetExponent (totalExponent n.toNat 0)).toNat =
      52 - n.toNat.log2 := by
    simp only [Format.targetExponent, totalExponent, Format.mantissaBits, Format.minExponent]
    omega
  have wide : 2 ^ 52 ≤ n.toNat <<< (52 - n.toNat.log2) := by
    rw [Nat.shiftLeft_eq]
    calc 2 ^ 52 ≤ 2 ^ (n.toNat.log2 + (52 - n.toNat.log2)) :=
          Nat.pow_le_pow_right (by omega) (by omega)
      _ = 2 ^ n.toNat.log2 * 2 ^ (52 - n.toNat.log2) := Nat.pow_add ..
      _ ≤ n.toNat * 2 ^ (52 - n.toNat.log2) :=
          Nat.mul_le_mul_right _ (Nat.log2_self_le (by omega))
  have rounded := round_full .exact wide (e := 0 - ((52 - n.toNat.log2 : Nat) : Int)) (by omega)
  simp only [UnpackedFloat.round, decreaseExponent, amount]
  exact rounded.mono (by omega)

/-- Dividing one full mantissa by another leaves a full one above the subnormal range. -/
theorem div_full {x y : Float} {hm : 0 < m} (full : FullFrom low x.toModel.unpack)
    (divisor : y.toModel.unpack = .finite .positive m e hm) (wide : 2 ^ 52 ≤ m) (narrow : m < 2 ^ 53)
    (normal : -1021 ≤ low - e) :
    FullFrom (low - e - 53) (x / y).toModel.unpack := by
  change FullFrom _ (UnpackedFloat.unpack Format.binary64 (UnpackedFloat.pack Format.binary64
    (UnpackedFloat.div Format.binary64 x.toModel.unpack y.toModel.unpack)))
  apply unpack_pack_full ?_ (by omega)
  rw [divisor]
  match x.toModel.unpack, full with
  | .infinity .positive, _ => trivial
  | .finite .positive m₁ e₁ _, ⟨wide₁, narrow₁, above⟩ =>
      have exponent : min (e₁ - e) (Format.binary64.targetExponent
          (totalExponent m₁ e₁ - totalExponent m e)) = e₁ - e - 53 := by
        simp only [Format.targetExponent, totalExponent, Format.mantissaBits, Format.minExponent,
          log2_of_full wide narrow, log2_of_full wide₁ narrow₁]
        omega
      have shift : (e₁ - e - (e₁ - e - 53)).toNat = 53 := by omega
      simp only [UnpackedFloat.div, divCore, exponent, shift]
      have quotient : 2 ^ 52 ≤ m₁ <<< 53 / m := by
        rw [Nat.shiftLeft_eq, Nat.le_div_iff_mul_le hm]
        omega
      exact (round_full _ quotient (by omega)).mono (by omega)

/-- No positive machine integer is divided down to nothing. -/
theorem toFloat_div_pos {n : UInt64} {y : Float} {hm : 0 < m} (nonzero : n ≠ 0)
    (divisor : y.toModel.unpack = .finite .positive m e hm) (wide : 2 ^ 52 ≤ m) (narrow : m < 2 ^ 53)
    (normal : e ≤ 969) : 0 < n.toFloat / y :=
  pos_of_full (div_full (toFloat_full n nonzero) divisor wide narrow (by omega))

end VanillaRtb.Lib.Binary64
