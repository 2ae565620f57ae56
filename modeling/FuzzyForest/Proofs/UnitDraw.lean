/-
The range of unit draws.

The number that a word stands for is a 53-bit whole number divided by the 53rd power of two.  Both
the conversion and the division are exact, so that the result keeps below one, and a draw whose
probability is at least one always succeeds.
-/
import FuzzyForest.Proofs.Order
import FuzzyForest.Random.Source
import Mathlib

namespace FuzzyForest

open Float.Model Float.Model.UnpackedFloat

namespace Binary64

/-! ### Numbers with a full mantissa -/

lemma unpackSign_positive (exponent : BitVec 11) (mantissa : BitVec 52) :
    Sign.ofBitVec (unpackSign (packComponents Format.binary64 .positive exponent mantissa))
      = .positive := by
  have h : unpackSign (packComponents Format.binary64 .positive exponent mantissa) = 0#1 := by
    refine BitVec.eq_of_getLsbD_eq fun i hi => ?_
    obtain rfl : i = 0 := by omega
    simp only [unpackSign, packComponents, Sign.toBitVec, BitVec.getLsbD_cast,
      BitVec.getLsbD_extractLsb, BitVec.getLsbD_append]
    simp
  rw [h]
  rfl

/-- The implicit bit completes a mantissa. -/
lemma implicit_append {m : Nat} (hlow : 2 ^ 52 ≤ m) (hhigh : m < 2 ^ 53) :
    (1#1 ++ BitVec.ofNat 52 m).toNat = m := by
  rw [BitVec.toNat_append, ← Nat.shiftLeft_add_eq_or_of_lt (BitVec.isLt _), BitVec.toNat_ofNat,
    BitVec.toNat_ofNat, Nat.shiftLeft_eq]
  omega

/-- Packing a positive number with a full mantissa loses nothing. -/
lemma unpack_pack {m : Nat} {e : Int} (hpos : 0 < m) (hm : m.log2 = 52) (hlow : -1074 < e)
    (hhigh : e < 900) :
    (pack (.finite .positive m e hpos)).unpack = .finite .positive m e hpos := by
  have hlower : 2 ^ 52 ≤ m := hm ▸ Nat.log2_self_le hpos.ne'
  have hupper : m < 2 ^ 53 := (Nat.log2_lt hpos.ne').mp (by omega)
  have hbias : Format.binary64.exponentBias = 1023 := rfl
  -- the exponent as it is stored
  obtain ⟨b, hb, hblow, hbhigh⟩ : ∃ b : Nat, e + (1023 : Nat) + (52 : Nat) = b ∧ 0 < b ∧ b < 2046 :=
    ⟨(e + 1023 + 52).toNat, by omega, by omega, by omega⟩
  have hpack : UnpackedFloat.pack Format.binary64 (.finite .positive m e hpos)
      = packComponents Format.binary64 .positive (BitVec.ofNat 11 b) (BitVec.ofNat 52 m) := by
    simp only [UnpackedFloat.pack, hbias, hm, hb, Int.toNat_natCast]
    rw [if_neg (by omega), if_pos (by rfl)]
  have hones : BitVec.ofNat 11 b ≠ -1#11 := by
    intro h
    have := congrArg BitVec.toNat h
    simp at this
    omega
  have hzeros : BitVec.ofNat 11 b ≠ 0#11 := by
    intro h
    have := congrArg BitVec.toNat h
    simp at this
    omega
  show UnpackedFloat.unpack Format.binary64
    (UInt64.ofBitVec (UnpackedFloat.pack Format.binary64 (.finite .positive m e hpos))).toBitVec = _
  rw [hpack]
  simp only [UnpackedFloat.unpack, unpackMantissa_packComponents, unpackExponent_packComponents,
    hones, hzeros, if_false, unpackSign_positive, hbias, implicit_append hlower hupper]
  congr 1
  simp
  omega

/-- The exponent that a number with 53 bits of mantissa has to have. -/
lemma targetExponent_eq {m : Nat} {e : Int} {k : Nat} (hm : m.log2 = k)
    (hlow : -1074 < e + k - 52) :
    Format.binary64.targetExponent (totalExponent m e) = e + k - 52 := by
  simp only [Format.targetExponent, totalExponent, Format.mantissaBits, Format.minExponent, hm]
  omega

/-- A full mantissa need not be shifted. -/
lemma shiftToTargetExponent_full {m : Nat} {e : Int} (hm : m.log2 = 52) (hlow : -1074 < e) :
    shiftToTargetExponent Format.binary64 m e .exact = (⟨m, false, false⟩, e) := by
  rw [shiftToTargetExponent, targetExponent_eq hm (by omega), shiftToExponent]
  have hshift : (e + (52 : Nat) - 52 - e).toNat = 0 := by omega
  simp only [hshift]
  exact Prod.ext rfl (Int.add_zero e)

/-- An even mantissa that is one bit too long is halved. -/
lemma shiftToTargetExponent_even {m : Nat} {e : Int} (hpos : 0 < m) (hm : m.log2 = 52)
    (hlow : -1074 < e) :
    shiftToTargetExponent Format.binary64 (2 * m) (e - 1) .exact = (⟨m, false, false⟩, e) := by
  have hlog : (2 * m).log2 = 53 := by rw [Nat.log2_two_mul hpos.ne', hm]
  rw [shiftToTargetExponent, targetExponent_eq hlog (by omega), shiftToExponent]
  have hshift : (e - 1 + (53 : Nat) - 52 - (e - 1)).toNat = 1 := by omega
  simp only [hshift]
  refine Prod.ext ?_ (by simp)
  show ExtendedMantissa.shiftRightOne ⟨2 * m, false, false⟩ = _
  simp [ExtendedMantissa.shiftRightOne]

/-- Rounding changes nothing where a shift gives a full mantissa without rest. -/
lemma roundWithAccuracy_eq {m m' : Nat} {e e' : Int} (hpos : 0 < m) (hm : m.log2 = 52)
    (hlow : -1074 < e)
    (hshift : shiftToTargetExponent Format.binary64 m' e' .exact = (⟨m, false, false⟩, e)) :
    roundWithAccuracy Format.binary64 .positive m' e' .exact = .finite .positive m e hpos := by
  have hrounded : ExtendedMantissa.roundedMantissa ⟨m, false, false⟩ = m := rfl
  simp only [roundWithAccuracy, hshift, hrounded, shiftToTargetExponent_full hm hlow, hpos.ne',
    dif_neg, not_false_eq_true]

/-! ### Whole numbers and their parts -/

/-- The mantissa of a whole number, shifted to its full length. -/
def fullMantissa (n : Nat) : Nat := n <<< (52 - n.log2)

lemma fullMantissa_pos {n : Nat} (hn : 0 < n) : 0 < fullMantissa n := by
  rw [fullMantissa, Nat.shiftLeft_eq]
  exact Nat.mul_pos hn (Nat.two_pow_pos _)

lemma log2_le {n : Nat} (hn : 0 < n) (hlt : n < 2 ^ 53) : n.log2 ≤ 52 := by
  have := (Nat.log2_lt hn.ne').mpr hlt
  omega

lemma log2_fullMantissa {n : Nat} (hn : 0 < n) (hlt : n < 2 ^ 53) : (fullMantissa n).log2 = 52 := by
  have hle := log2_le hn hlt
  have hsplit : n.log2 + (52 - n.log2) = 52 := by omega
  have hsplit' : n.log2 + 1 + (52 - n.log2) = 52 + 1 := by omega
  rw [Nat.log2_eq_iff (fullMantissa_pos hn).ne', fullMantissa, Nat.shiftLeft_eq]
  constructor
  · calc 2 ^ 52 = 2 ^ n.log2 * 2 ^ (52 - n.log2) := by rw [← Nat.pow_add, hsplit]
      _ ≤ n * 2 ^ (52 - n.log2) := Nat.mul_le_mul_right _ (Nat.log2_self_le hn.ne')
  · calc n * 2 ^ (52 - n.log2) < 2 ^ (n.log2 + 1) * 2 ^ (52 - n.log2) :=
          Nat.mul_lt_mul_of_pos_right Nat.lt_log2_self (Nat.two_pow_pos _)
      _ = 2 ^ (52 + 1) := by rw [← Nat.pow_add, hsplit']

/-- A whole number of at most 53 bits is converted without rounding. -/
lemma unpack_toFloat {n : UInt64} (hn : 0 < n.toNat) (hlt : n.toNat < 2 ^ 53) :
    n.toFloat.toModel.unpack
      = .finite .positive (fullMantissa n.toNat) (n.toNat.log2 - 52) (fullMantissa_pos hn) := by
  have hle := log2_le hn hlt
  have hlog := log2_fullMantissa hn hlt
  have hround : UnpackedFloat.round Format.binary64 .positive n.toNat 0
      = .finite .positive (fullMantissa n.toNat) (n.toNat.log2 - 52) (fullMantissa_pos hn) := by
    have htarget : Format.binary64.targetExponent (totalExponent n.toNat 0)
        = n.toNat.log2 - 52 := by
      rw [targetExponent_eq rfl (by omega), Int.zero_add]
    have hshift : (0 - ((n.toNat.log2 : Int) - 52)).toNat = 52 - n.toNat.log2 := by omega
    have hexponent : (0 : Int) - ((52 - n.toNat.log2 : Nat) : Int) = n.toNat.log2 - 52 := by omega
    simp only [UnpackedFloat.round, htarget, decreaseExponent, hshift, hexponent]
    exact roundWithAccuracy_eq _ hlog (by omega) (shiftToTargetExponent_full hlog (by omega))
  have hmodel : UnpackedFloat.ofUInt64 Format.binary64 n
      = UnpackedFloat.round Format.binary64 .positive n.toNat 0 := by
    simp only [UnpackedFloat.ofUInt64, UnpackedFloat.ofNat, UnpackedFloat.ofInt,
      UnpackedFloat.normalize,
      Int.compare_eq_gt.mpr (Int.natCast_pos.mpr hn), Int.toNat_natCast]
  show (pack (UnpackedFloat.ofUInt64 Format.binary64 n)).unpack = _
  rw [hmodel, hround]
  exact unpack_pack _ hlog (by omega) (by omega)

/-- The 53rd power of two. -/
lemma unpack_scale : (9007199254740992.0 : Float).toModel.unpack
    = .finite .positive (2 ^ 52) 1 (by decide) := by
  have h : (9007199254740992.0 : Float)
      = .ofModel (pack (.finite .positive (2 ^ 52) 1 (by decide))) := by
    decide +kernel
  rw [h]
  exact unpack_pack _ (by decide) (by decide) (by decide)

/-- Dividing a full mantissa by the 53rd power of two changes only the exponent. -/
lemma div_scale {m : Nat} {e : Int} (hpos : 0 < m) (hm : m.log2 = 52) (hlow : -900 < e)
    (hhigh : e ≤ 0) :
    UnpackedFloat.div Format.binary64 (.finite .positive m e hpos)
      (.finite .positive (2 ^ 52) 1 (by decide)) = .finite .positive m (e - 53) hpos := by
  have hscale : (2 ^ 52 : Nat).log2 = 52 := by decide
  have htarget : Format.binary64.targetExponent (totalExponent m e - totalExponent (2 ^ 52) 1)
      = e - 54 := by
    simp only [Format.targetExponent, totalExponent, Format.mantissaBits, Format.minExponent, hm,
      hscale]
    omega
  have hmin : min (e - 1) (e - 54) = e - 54 := by omega
  have hshift : (e - 1 - (e - 54)).toNat = 53 := by omega
  have hlong : m <<< 53 = 2 * m * 2 ^ 52 := by
    rw [Nat.shiftLeft_eq]
    omega
  -- the quotient has one bit more than a mantissa, and that bit is zero
  have hcore : divCore Format.binary64 m e (2 ^ 52) 1 = (2 * m, e - 53 - 1, .exact) := by
    simp only [divCore, htarget, hmin, hshift, hlong]
    rw [Nat.mul_div_cancel _ (by decide), Nat.mul_mod_left]
    exact Prod.ext rfl (Prod.ext (show e - 54 = e - 53 - 1 by omega) rfl)
  simp only [UnpackedFloat.div, hcore]
  exact roundWithAccuracy_eq hpos hm (by omega)
    (shiftToTargetExponent_even hpos hm (by omega))

end Binary64

/-! ### Draws -/

namespace Draw

open Binary64

lemma toNat_shiftRight_lt (w : UInt64) : (w >>> 11).toNat < 2 ^ 53 := by
  rw [UInt64.toNat_shiftRight]
  have := w.toNat_lt
  simp [Nat.shiftRight_eq_div_pow]
  omega

/-- The number that a word stands for: zero, or a full mantissa with a small exponent. -/
lemma unpack_unitOf (w : UInt64) :
    (unitOf w).toModel.unpack = .zero .positive ∨
      ∃ m e h, e ≤ -53 ∧ (unitOf w).toModel.unpack = .finite .positive m e h := by
  have hlt := toNat_shiftRight_lt w
  rcases Nat.eq_zero_or_pos (w >>> 11).toNat with hzero | hpos
  · refine .inl ?_
    rw [unitOf, UInt64.toNat_inj.mp (hzero.trans UInt64.toNat_zero.symm)]
    have h : (0 : UInt64).toFloat / 9007199254740992.0 = 0.0 := by decide +kernel
    have h' : (0.0 : Float) = .ofModel (pack (.zero .positive)) := by decide +kernel
    rw [h, h']
    rfl
  · have hlog := log2_fullMantissa hpos hlt
    have hle := log2_le hpos hlt
    refine .inr ⟨fullMantissa (w >>> 11).toNat, (w >>> 11).toNat.log2 - 52 - 53,
      fullMantissa_pos hpos, by omega, ?_⟩
    show (pack (UnpackedFloat.div Format.binary64 (w >>> 11).toFloat.toModel.unpack
      (9007199254740992.0 : Float).toModel.unpack)).unpack = _
    rw [unpack_toFloat hpos hlt, unpack_scale, div_scale _ hlog (by omega) (by omega)]
    exact unpack_pack _ hlog (by omega) (by omega)

lemma unpack_one : (1.0 : Float).toModel.unpack = .finite .positive (2 ^ 52) (-52) (by decide) := by
  have h : (1.0 : Float) = .ofModel (pack (.finite .positive (2 ^ 52) (-52) (by decide))) := by
    decide +kernel
  rw [h]
  exact unpack_pack _ (by decide) (by decide) (by decide)

/-- **The number that a word stands for is below one.** -/
theorem unitOf_lt_one (w : UInt64) : unitOf w < 1.0 := by
  rw [lt_iff_compare, unpack_one]
  rcases unpack_unitOf w with h | ⟨m, e, hpos, he, h⟩
  · rw [h]
    rfl
  · rw [h]
    have hlt : (compare e (-52)).then (compare m (2 ^ 52)) = .lt :=
      then_eq_lt_iff.mpr (.inl (by omega))
    simp only [UnpackedFloat.compare, hlt]

/-- No number that a word stands for is below zero. -/
lemma not_unitOf_lt_zero (w : UInt64) : ¬unitOf w < 0.0 := by
  have hzero : (0.0 : Float).toModel.unpack = .zero .positive := by
    have h : (0.0 : Float) = .ofModel (pack (.zero .positive)) := by decide +kernel
    rw [h]
    rfl
  rw [lt_iff_compare, hzero]
  rcases unpack_unitOf w with h | ⟨m, e, hpos, he, h⟩
  · rw [h]
    decide
  · rw [h]
    simp [UnpackedFloat.compare]

lemma zero_le_unitOf (w : UInt64) : 0.0 ≤ unitOf w :=
  (le_iff_not_lt (by decide +kernel) (isNaN_of_lt_left (unitOf_lt_one w))).mpr
    (not_unitOf_lt_zero w)

end Draw

end FuzzyForest
