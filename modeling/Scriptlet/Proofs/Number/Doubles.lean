import Scriptlet.Number.Basic
import Scriptlet.Proofs.Number.Rounding

/-!
# Doubles by sign and pattern

A double is given by its sign and its pattern, and the model of doubles takes it apart into what
they stand for: zero, infinity, no number, or a significand with a power of two. `unpacked` is that
value for a sign and a pattern, so the operations on doubles can be read off it.
-/

namespace Scriptlet.Number

open Float.Model (Format UnpackedFloat)
open Float.Model.UnpackedFloat (Sign unpackMantissa unpackExponent unpackSign packComponents)

/-! ## Bits -/

def bitsOf (negative : Bool) (p : Nat) : BitVec Format.binary64.numBits :=
  BitVec.ofNat _ (if negative then Nat.pow 2 63 + p else p)

def signOf (negative : Bool) : Sign := if negative then .negative else .positive

theorem lt_of_le_infinity {p : Nat} (h : p ≤ Binary64.infinity) : p < Nat.pow 2 63 :=
  Nat.lt_of_le_of_lt h (by decide)

theorem toNat_bitsOf (negative : Bool) {p : Nat} (h : p < Nat.pow 2 63) :
    (bitsOf negative p).toNat = (if negative then Nat.pow 2 63 + p else p) := by
  have hsize : 2 ^ Format.binary64.numBits = 18446744073709551616 := rfl
  rw [bitsOf, BitVec.toNat_ofNat, hsize]
  apply Nat.mod_eq_of_lt
  simp only [Nat.pow_eq] at h ⊢
  split <;> omega

section Fields

variable (negative : Bool) {p : Nat} (h : p < Nat.pow 2 63)

include h

theorem toNat_unpackMantissa :
    (unpackMantissa (bitsOf negative p)).toNat = p % Nat.pow 2 52 := by
  rw [unpackMantissa, BitVec.toNat_cast, BitVec.extractLsb_toNat, toNat_bitsOf negative h]
  simp only [Nat.pow_eq, Nat.shiftRight_zero]
  split <;> omega

theorem toNat_unpackExponent :
    (unpackExponent (bitsOf negative p)).toNat = p / Nat.pow 2 52 := by
  rw [unpackExponent, BitVec.toNat_cast, BitVec.extractLsb_toNat, toNat_bitsOf negative h]
  simp only [Nat.pow_eq, Nat.shiftRight_eq_div_pow] at h ⊢
  split <;> omega

theorem ofBitVec_unpackSign :
    Sign.ofBitVec (unpackSign (bitsOf negative p)) = signOf negative := by
  have hbit : (unpackSign (bitsOf negative p)).toNat = if negative then 1 else 0 := by
    unfold unpackSign
    rw [BitVec.toNat_cast, BitVec.extractLsb_toNat, toNat_bitsOf negative h]
    simp only [Nat.pow_eq, Nat.shiftRight_eq_div_pow] at h ⊢
    split <;> omega
  have heq : unpackSign (bitsOf negative p) = BitVec.ofBool negative := by
    apply BitVec.eq_of_toNat_eq
    rw [hbit, BitVec.toNat_ofBool]
    cases negative <;> rfl
  rw [heq]
  cases negative <;> rfl

/-- The largest exponent marks infinity and all that is no number. -/
theorem unpackExponent_eq_ones_iff :
    unpackExponent (bitsOf negative p) = -1#_ ↔ Binary64.infinity ≤ p := by
  have hinfinity : Binary64.infinity = 2047 * 2 ^ 52 := rfl
  rw [← BitVec.toNat_inj, toNat_unpackExponent negative h]
  simp only [Nat.pow_eq] at h ⊢
  simp
  omega

theorem unpackExponent_eq_zero_iff :
    unpackExponent (bitsOf negative p) = 0#_ ↔ p < Nat.pow 2 52 := by
  rw [← BitVec.toNat_inj, toNat_unpackExponent negative h]
  simp

theorem unpackMantissa_eq_zero_iff :
    unpackMantissa (bitsOf negative p) = 0#_ ↔ p % Nat.pow 2 52 = 0 := by
  rw [← BitVec.toNat_inj, toNat_unpackMantissa negative h]
  simp

/-- A normal significand has a leading bit that is not written. -/
theorem toNat_one_append_unpackMantissa :
    (1#1 ++ unpackMantissa (bitsOf negative p)).toNat = Nat.pow 2 52 + p % Nat.pow 2 52 := by
  rw [BitVec.toNat_append, ← Nat.shiftLeft_add_eq_or_of_lt (BitVec.isLt _),
    toNat_unpackMantissa negative h]
  simp [Nat.shiftLeft_eq]

end Fields

/-! ## What the bits stand for -/

/-- The value with the given sign and pattern. -/
def unpacked (negative : Bool) (p : Nat) : UnpackedFloat :=
  if p < Binary64.infinity then
    if hpos : 0 < p then
      .finite (signOf negative) (Binary64.significand p) (Binary64.shift p - 1074)
        (Binary64.significand_pos hpos)
    else .zero (signOf negative)
  else if p = Binary64.infinity then .infinity (signOf negative)
  else .notANumber

theorem unpacked_of_finite (negative : Bool) {p : Nat} (hpos : 0 < p) (h : p < Binary64.infinity) :
    unpacked negative p = .finite (signOf negative) (Binary64.significand p)
      (Binary64.shift p - 1074) (Binary64.significand_pos hpos) := by
  rw [unpacked, if_pos h, dif_pos hpos]

theorem unpacked_of_infinity_lt (negative : Bool) {p : Nat} (h : Binary64.infinity < p) :
    unpacked negative p = .notANumber := by
  rw [unpacked, if_neg (Nat.lt_asymm h), if_neg (Nat.ne_of_gt h)]

/-- What holds of zero, of the other finite values, of infinity and of what is no number holds of
every value. -/
theorem unpacked_cases {motive : Nat → UnpackedFloat → Prop} (negative : Bool) (p : Nat)
    (zero : motive 0 (.zero (signOf negative)))
    (finite : ∀ p (hpos : 0 < p), p < Binary64.infinity →
      motive p (.finite (signOf negative) (Binary64.significand p) (Binary64.shift p - 1074)
        (Binary64.significand_pos hpos)))
    (infinity : motive Binary64.infinity (.infinity (signOf negative)))
    (nan : ∀ p, Binary64.infinity < p → motive p .notANumber) :
    motive p (unpacked negative p) := by
  rcases Nat.lt_trichotomy p Binary64.infinity with hfinite | rfl | hnan
  · rcases Nat.eq_zero_or_pos p with rfl | hpos
    · exact zero
    · rw [unpacked_of_finite negative hpos hfinite]
      exact finite p hpos hfinite
  · rw [unpacked, if_neg (Nat.lt_irrefl _), if_pos rfl]
    exact infinity
  · rw [unpacked_of_infinity_lt negative hnan]
    exact nan p hnan

theorem unpack_bitsOf (negative : Bool) {p : Nat} (h : p < Nat.pow 2 63) :
    UnpackedFloat.unpack .binary64 (bitsOf negative p) = unpacked negative p := by
  have hmantissa := toNat_unpackMantissa negative h
  have hexponent := toNat_unpackExponent negative h
  have hinfinity : Binary64.infinity = 2047 * Nat.pow 2 52 := rfl
  have hbias : ((Format.binary64.exponentBias : Nat) : Int) = 1023 := rfl
  have hones := unpackExponent_eq_ones_iff negative h
  have hzero := unpackMantissa_eq_zero_iff negative h
  unfold UnpackedFloat.unpack unpacked
  dsimp only
  rw [ofBitVec_unpackSign negative h]
  by_cases hfinite : p < Binary64.infinity
  · rw [if_pos hfinite, if_neg (fun heq ↦ Nat.not_le.mpr hfinite (hones.mp heq))]
    -- below `2 ^ 52` the leading bit of the significand is not implicit
    by_cases hsmall : p < Nat.pow 2 52
    · rw [if_pos ((unpackExponent_eq_zero_iff negative h).mpr hsmall)]
      rw [Nat.mod_eq_of_lt hsmall] at hmantissa hzero
      rcases Nat.eq_zero_or_pos p with rfl | hpos
      · rw [dif_pos (hzero.mpr rfl)]
        rfl
      · rw [dif_neg (fun heq ↦ Nat.ne_of_gt hpos (hzero.mp heq)), dif_pos hpos,
          UnpackedFloat.finite.injEq, hmantissa, hexponent, hbias]
        refine ⟨rfl, ?_, ?_⟩ <;>
          simp only [Binary64.significand, Binary64.shift, Nat.pow_eq] at hsmall ⊢ <;>
          omega
    · have hlarge := fun heq ↦ hsmall ((unpackExponent_eq_zero_iff negative h).mp heq)
      have hpos : 0 < p := Nat.lt_of_lt_of_le (Nat.two_pow_pos 52) (Nat.not_lt.mp hsmall)
      rw [if_neg hlarge, dif_pos hpos, UnpackedFloat.finite.injEq,
        toNat_one_append_unpackMantissa negative h, hexponent, hbias]
      refine ⟨rfl, ?_, ?_⟩ <;>
        simp only [Binary64.significand, Binary64.shift, Nat.pow_eq] at hsmall ⊢ <;>
        omega
  · rw [if_neg hfinite, if_pos (hones.mpr (Nat.not_lt.mp hfinite))]
    simp only [Nat.pow_eq] at h hinfinity hzero
    by_cases heq : p = Binary64.infinity
    · rw [if_pos heq, if_pos (hzero.mpr (by omega))]
    · rw [if_neg heq, if_neg (fun hnone ↦ heq (by have := hzero.mp hnone; omega))]

theorem toNat_packComponents (negative : Bool) (e : BitVec 11) (m : BitVec 52) :
    (packComponents .binary64 (signOf negative) e m).toNat
      = (if negative then Nat.pow 2 63 else 0) + (e.toNat * Nat.pow 2 52 + m.toNat) := by
  have hsign : (signOf negative).toBitVec.toNat = if negative then 1 else 0 := by
    cases negative <;> rfl
  have happend : packComponents .binary64 (signOf negative) e m
      = (signOf negative).toBitVec ++ e ++ m := rfl
  rw [happend, BitVec.toNat_append, ← Nat.shiftLeft_add_eq_or_of_lt m.isLt, BitVec.toNat_append,
    ← Nat.shiftLeft_add_eq_or_of_lt e.isLt, hsign, Nat.shiftLeft_eq, Nat.shiftLeft_eq, Nat.pow_eq,
    Nat.pow_eq]
  cases negative with
  | false => simp
  | true =>
    simp
    omega

/-- The significand has all its bits from `2 ^ 52` on. -/
theorem log2_significand {p : Nat} (h : 0 < p) :
    (Binary64.significand p).log2 = 52 ↔ Nat.pow 2 52 ≤ p := by
  have hlt := Binary64.significand_lt p
  rw [Nat.log2_eq_iff (Nat.ne_of_gt (Binary64.significand_pos h))]
  simp only [Binary64.significand, Binary64.shift, Nat.pow_eq] at hlt ⊢
  omega

/-- The exponent that is written is one more than the shift if the significand has all its bits, and
zero if it has not. -/
theorem pack_finite (negative : Bool) {p : Nat} (hpos : 0 < p) (h : p < Binary64.infinity) :
    UnpackedFloat.pack .binary64 (.finite (signOf negative) (Binary64.significand p)
      (Binary64.shift p - 1074) (Binary64.significand_pos hpos)) = bitsOf negative p := by
  have hbias : (Format.binary64.exponentBias : Int) + Format.binary64.mantissaBitsWithoutImplicit
      = 1075 := rfl
  have hexponent : ((Binary64.shift p : Int) - 1074 + Format.binary64.exponentBias
      + Format.binary64.mantissaBitsWithoutImplicit).toNat = Binary64.shift p + 1 := by
    omega
  have hsmall : ¬ 2 ^ Format.binary64.exponentBits ≤ Binary64.shift p + 1 + 1 := by
    have hbits : 2 ^ Format.binary64.exponentBits = 2048 := rfl
    have hshift := Binary64.shift_le h
    omega
  have hfull : (Binary64.significand p).log2 + 1 = Format.binary64.mantissaBits
      ↔ Nat.pow 2 52 ≤ p := by
    rw [← log2_significand hpos]
    exact Nat.succ_inj
  apply BitVec.eq_of_toNat_eq
  rw [toNat_bitsOf negative (lt_of_le_infinity (Nat.le_of_lt h))]
  unfold UnpackedFloat.pack
  simp only [hexponent, if_neg hsmall, hfull]
  have hshift := Binary64.shift_le h
  have hsum := Binary64.shift_mul_add_significand p
  have hmantissa : (BitVec.ofNat 52 (Binary64.significand p)).toNat = p % Nat.pow 2 52 := by
    rw [BitVec.toNat_ofNat]
    simp only [Nat.pow_eq] at hsum ⊢
    omega
  split
  · rename_i hlarge
    have hfield : (BitVec.ofNat 11 (Binary64.shift p + 1)).toNat = p / Nat.pow 2 52 := by
      rw [BitVec.toNat_ofNat]
      simp only [Binary64.shift, Nat.pow_eq] at hshift hlarge ⊢
      omega
    refine (toNat_packComponents negative _ _).trans ?_
    rw [hfield, hmantissa, Nat.div_add_mod']
    cases negative <;> simp
  · rename_i hless
    refine (toNat_packComponents negative _ _).trans ?_
    rw [hmantissa, Nat.mod_eq_of_lt (Nat.not_le.mp hless)]
    cases negative <;> simp

/-- Up to infinity the model puts the same bits together again. -/
theorem pack_unpacked (negative : Bool) {p : Nat} (h : p ≤ Binary64.infinity) :
    UnpackedFloat.pack .binary64 (unpacked negative p) = bitsOf negative p := by
  revert h
  refine unpacked_cases (motive := fun p u ↦ p ≤ Binary64.infinity →
    UnpackedFloat.pack .binary64 u = bitsOf negative p) negative p ?_ ?_ ?_ ?_
  · intro _
    cases negative <;> rfl
  · exact fun p hpos hfinite _ ↦ pack_finite negative hpos hfinite
  · intro _
    cases negative <;> rfl
  · exact fun p hnan hle ↦ absurd hnan (Nat.not_lt.mpr hle)

/-! ## Doubles -/

theorem parts_eq_toNat_toBits (x : Float) :
    (if isNegative x then Nat.pow 2 63 + magnitude x else magnitude x) = x.toBits.toNat := by
  have hlt : x.toBits.toNat < 2 ^ 64 := x.toBits.toNat_lt
  simp only [isNegative, magnitude, decide_eq_true_eq, Nat.pow_eq]
  split <;> omega

theorem bitsOf_self (x : Float) : bitsOf (isNegative x) (magnitude x) = x.toBits.toBitVec := by
  rw [bitsOf, parts_eq_toNat_toBits]
  exact BitVec.ofNat_toNat _ _

theorem unpack_toModel (x : Float) :
    x.toModel.unpack = unpacked (isNegative x) (magnitude x) := by
  have hbound : magnitude x < Nat.pow 2 63 := Nat.mod_lt _ (Nat.two_pow_pos 63)
  rw [← unpack_bitsOf _ hbound, bitsOf_self]
  rfl

theorem ofParts_eq_pack (negative : Bool) {p : Nat} (h : p < Nat.pow 2 63) :
    ofParts negative p = .ofModel (.pack (unpacked negative p)) := by
  rw [← unpack_bitsOf _ h]
  rfl

theorem unpack_pack (negative : Bool) {p : Nat} (h : p ≤ Binary64.infinity) :
    (Float.Model.pack (unpacked negative p)).unpack = unpacked negative p := by
  have hbits : UnpackedFloat.unpack .binary64 (UnpackedFloat.pack .binary64 (unpacked negative p))
      = unpacked negative p := by
    rw [pack_unpacked negative h, unpack_bitsOf negative (lt_of_le_infinity h)]
  exact hbits

theorem eq_of_toBits_eq {x y : Float} (h : x.toBits.toBitVec = y.toBits.toBitVec) : x = y := by
  obtain ⟨⟨⟨_⟩, _⟩⟩ := x
  obtain ⟨⟨⟨_⟩, _⟩⟩ := y
  cases h
  rfl

/-- The model puts every double together again. Of those that are no numbers there is only one. -/
theorem pack_unpack_self (x : Float) :
    UnpackedFloat.pack .binary64 x.toModel.unpack = x.toBits.toBitVec := by
  rw [unpack_toModel]
  rcases Nat.lt_or_ge Binary64.infinity (magnitude x) with hnan | hle
  · have hbound : magnitude x < Nat.pow 2 63 := Nat.mod_lt _ (Nat.two_pow_pos 63)
    have hexponent := (unpackExponent_eq_ones_iff (isNegative x) hbound).mpr (Nat.le_of_lt hnan)
    have hmantissa : ¬ unpackMantissa (bitsOf (isNegative x) (magnitude x)) = 0#_ := by
      rw [unpackMantissa_eq_zero_iff _ hbound]
      simp only [Binary64.infinity, Nat.pow_eq] at hnan hbound ⊢
      omega
    rw [bitsOf_self] at hexponent hmantissa
    rw [unpacked_of_infinity_lt _ hnan]
    exact (x.toModel.valid.eq_packedNaN hexponent hmantissa).symm
  · rw [pack_unpacked _ hle, bitsOf_self]

theorem ofParts_self (x : Float) : ofParts (isNegative x) (magnitude x) = x := by
  rw [ofParts, parts_eq_toNat_toBits, UInt64.ofNat_toNat]
  exact eq_of_toBits_eq (pack_unpack_self x)

theorem eq_of_unpack_eq {x y : Float} (h : x.toModel.unpack = y.toModel.unpack) : x = y := by
  apply eq_of_toBits_eq
  rw [← pack_unpack_self x, h, pack_unpack_self]

theorem neg_ofParts (negative : Bool) {p : Nat} (h : p ≤ Binary64.infinity) :
    -ofParts negative p = ofParts (!negative) p := by
  have hneg : (unpacked negative p).neg = unpacked (!negative) p := by
    revert h
    refine unpacked_cases (motive := fun p u ↦ p ≤ Binary64.infinity →
      u.neg = unpacked (!negative) p) negative p ?_ ?_ ?_ ?_
    · intro _
      cases negative <;> rfl
    · intro p hpos hfinite _
      rw [unpacked_of_finite _ hpos hfinite]
      cases negative <;> rfl
    · intro _
      cases negative <;> rfl
    · exact fun p hnan hle ↦ absurd hnan (Nat.not_lt.mpr hle)
  have hmodel (m : Float.Model) : -Float.ofModel m = .ofModel (.pack m.unpack.neg) := rfl
  rw [ofParts_eq_pack _ (lt_of_le_infinity h), ofParts_eq_pack _ (lt_of_le_infinity h), hmodel,
    unpack_pack negative h, hneg]

/-! ## Sorts of doubles -/

theorem isNaN_unpacked (negative : Bool) (p : Nat) :
    (unpacked negative p).isNaN = true ↔ Binary64.infinity < p := by
  refine unpacked_cases (motive := fun p u ↦ u.isNaN = true ↔ Binary64.infinity < p)
    negative p ?_ ?_ ?_ ?_
  · exact iff_of_false Bool.false_ne_true (Nat.not_lt_zero _)
  · exact fun p hpos hfinite ↦ iff_of_false Bool.false_ne_true (Nat.lt_asymm hfinite)
  · exact iff_of_false Bool.false_ne_true (Nat.lt_irrefl _)
  · exact fun p hnan ↦ iff_of_true rfl hnan

theorem isNaN_iff {x : Float} : x.isNaN = true ↔ Binary64.infinity < magnitude x := by
  rw [Float.isNaN, Float.Model.isNaN, unpack_toModel, isNaN_unpacked]

theorem isInf_iff {x : Float} : x.isInf = true ↔ magnitude x = Binary64.infinity := by
  rw [Float.isInf, Float.Model.isInf, unpack_toModel]
  refine unpacked_cases (motive := fun p u ↦ u.isInf = true ↔ p = Binary64.infinity)
    (isNegative x) (magnitude x) ?_ ?_ ?_ ?_
  · exact iff_of_false Bool.false_ne_true (by decide)
  · exact fun p hpos hfinite ↦ iff_of_false Bool.false_ne_true (Nat.ne_of_lt hfinite)
  · exact iff_of_true rfl rfl
  · exact fun p hnan ↦ iff_of_false Bool.false_ne_true (Nat.ne_of_gt hnan)

theorem isFinite_iff {x : Float} : x.isFinite = true ↔ magnitude x < Binary64.infinity := by
  rw [Float.isFinite, Float.Model.isFinite, unpack_toModel]
  refine unpacked_cases (motive := fun p u ↦ u.isFinite = true ↔ p < Binary64.infinity)
    (isNegative x) (magnitude x) ?_ ?_ ?_ ?_
  · exact iff_of_true rfl (by decide)
  · exact fun p hpos hfinite ↦ iff_of_true rfl hfinite
  · exact iff_of_false Bool.false_ne_true (Nat.lt_irrefl _)
  · exact fun p hnan ↦ iff_of_false Bool.false_ne_true (Nat.lt_asymm hnan)

theorem isNaN_eq_false_iff {x : Float} : x.isNaN = false ↔ magnitude x ≤ Binary64.infinity := by
  rw [← Bool.not_eq_true, isNaN_iff, Nat.not_lt]

theorem isNaN_ofParts (negative : Bool) {p : Nat} (h : p ≤ Binary64.infinity) :
    (ofParts negative p).isNaN = false := by
  have hmodel (m : Float.Model) : (Float.ofModel m).isNaN = m.unpack.isNaN := rfl
  rw [ofParts_eq_pack _ (lt_of_le_infinity h), hmodel, unpack_pack negative h,
    ← Bool.not_eq_true, isNaN_unpacked]
  exact Nat.not_lt.mpr h

/-- However large or small it is, a numeral is rounded to a number. -/
theorem isNaN_ofNumeral (n : Numeral) : (ofNumeral n).isNaN = false :=
  isNaN_ofParts n.negative n.decimal.pattern_le_infinity

/-! ## Equality -/

theorem magnitude_zero : magnitude 0.0 = 0 := rfl

theorem unpack_eq_zero_iff {x : Float} :
    (∃ s, x.toModel.unpack = .zero s) ↔ magnitude x = 0 := by
  rw [unpack_toModel]
  refine unpacked_cases (motive := fun p u ↦ (∃ s, u = .zero s) ↔ p = 0)
    (isNegative x) (magnitude x) ?_ ?_ ?_ ?_
  · exact iff_of_true ⟨_, rfl⟩ rfl
  · exact fun p hpos _ ↦ iff_of_false (fun ⟨s, heq⟩ ↦ by cases heq) (Nat.ne_of_gt hpos)
  · exact iff_of_false (fun ⟨s, heq⟩ ↦ by cases heq) (by decide)
  · exact fun p hnan ↦ iff_of_false (fun ⟨s, heq⟩ ↦ by cases heq) (Nat.ne_zero_of_lt hnan)

theorem compare_self {u : UnpackedFloat} (h : u ≠ .notANumber) : u.compare u = some .eq := by
  cases u with
  | notANumber => exact absurd rfl h
  | infinity s => cases s <;> rfl
  | zero s => rfl
  | finite s m e hm =>
    have hself : (compare e e).then (compare m m) = .eq := by simp
    cases s with
    | positive => exact congrArg some hself
    | negative => exact congrArg (fun o ↦ some o.swap) hself

theorem eq_or_zero_of_compare {u v : UnpackedFloat} (h : u.compare v = some .eq) :
    u = v ∨ (∃ s, u = .zero s) ∧ ∃ t, v = .zero t := by
  cases u with
  | notANumber => cases h
  | infinity s =>
    cases v with
    | infinity t =>
      cases s <;> cases t
      case positive.positive | negative.negative => exact .inl rfl
      all_goals cases h
    | notANumber | zero | finite => cases s <;> cases h
  | zero s =>
    cases v with
    | zero t => exact .inr ⟨⟨s, rfl⟩, t, rfl⟩
    | notANumber => cases h
    | infinity t | finite t => cases t <;> cases h
  | finite s m e hm =>
    cases v with
    | notANumber => cases h
    | infinity t => cases t <;> cases h
    | zero t => cases s <;> cases h
    | finite t m' e' hm' =>
      have hparts (hthen : (compare e e').then (compare m m') = .eq) : e = e' ∧ m = m' := by
        simpa [Ordering.then_eq_eq] using hthen
      cases s <;> cases t
      case positive.positive =>
        obtain ⟨rfl, rfl⟩ := hparts (Option.some.inj h)
        exact .inl rfl
      case negative.negative =>
        obtain ⟨rfl, rfl⟩ := hparts (Ordering.swap_eq_eq.mp (Option.some.inj h))
        exact .inl rfl
      all_goals cases h

/-- Values compare as equal if they are the same, or zeros with any signs. -/
theorem compare_eq_iff (u v : UnpackedFloat) : u.compare v = some .eq ↔
    u ≠ .notANumber ∧ (u = v ∨ (∃ s, u = .zero s) ∧ ∃ t, v = .zero t) := by
  constructor
  · intro h
    refine ⟨?_, eq_or_zero_of_compare h⟩
    rintro rfl
    cases h
  · rintro ⟨hne, rfl | ⟨⟨s, rfl⟩, t, rfl⟩⟩
    · exact compare_self hne
    · rfl

/-- Doubles are equal as numbers if they are the same number, or zeros with any signs. -/
theorem beq_iff {x y : Float} :
    (x == y) = true ↔ x.isNaN = false ∧ (x = y ∨ magnitude x = 0 ∧ magnitude y = 0) := by
  have hbeq : (x == y) = (x.toModel.unpack.compare y.toModel.unpack == some .eq) := rfl
  have hnan : x.isNaN = false ↔ x.toModel.unpack ≠ .notANumber := by
    have hmodel : x.isNaN = x.toModel.unpack.isNaN := rfl
    rw [hmodel]
    cases x.toModel.unpack with
    | notANumber => exact iff_of_false (by decide) fun hne ↦ hne rfl
    | infinity | zero | finite => exact iff_of_true rfl fun heq ↦ by cases heq
  rw [hbeq, beq_iff_eq, compare_eq_iff, unpack_eq_zero_iff, unpack_eq_zero_iff, hnan]
  have hsame : x.toModel.unpack = y.toModel.unpack ↔ x = y :=
    ⟨eq_of_unpack_eq, fun h ↦ h ▸ rfl⟩
  rw [hsame]

theorem beq_self {x : Float} (h : x.isNaN = false) : (x == x) = true := beq_iff.mpr ⟨h, .inl rfl⟩

theorem beq_comm (x y : Float) : (x == y) = (y == x) := by
  have hsymm {x y : Float} (h : (x == y) = true) : (y == x) = true := by
    obtain ⟨-, rfl | ⟨hx, hy⟩⟩ := beq_iff.mp h
    · exact h
    · exact beq_iff.mpr ⟨isNaN_eq_false_iff.mpr (hy ▸ Nat.zero_le _), .inr ⟨hy, hx⟩⟩
  exact Bool.eq_iff_iff.mpr ⟨hsymm, hsymm⟩

theorem beq_trans {x y z : Float} (hxy : (x == y) = true) (hyz : (y == z) = true) :
    (x == z) = true := by
  obtain ⟨hx, rfl | ⟨hx0, -⟩⟩ := beq_iff.mp hxy
  · exact hyz
  · obtain ⟨-, rfl | ⟨-, hz0⟩⟩ := beq_iff.mp hyz
    · exact hxy
    · exact beq_iff.mpr ⟨hx, .inr ⟨hx0, hz0⟩⟩

theorem beq_zero_iff {x : Float} : (x == 0.0) = true ↔ magnitude x = 0 := by
  rw [beq_iff, isNaN_eq_false_iff, magnitude_zero]
  constructor
  · rintro ⟨-, rfl | ⟨h, -⟩⟩
    · exact magnitude_zero
    · exact h
  · intro h
    rw [h]
    exact ⟨Nat.zero_le _, .inr ⟨rfl, rfl⟩⟩

/-! ## Order -/

theorem compare_swap (u v : UnpackedFloat) : v.compare u = (u.compare v).map Ordering.swap := by
  have hint (a b : Int) : compare b a = (compare a b).swap := Std.OrientedCmp.eq_swap
  have hnat (a b : Nat) : compare b a = (compare a b).swap := Std.OrientedCmp.eq_swap
  cases u with
  | infinity s =>
    cases v with
    | infinity t => cases s <;> cases t <;> rfl
    | _ => cases s <;> rfl
  | notANumber => cases v <;> rfl
  | zero s =>
    cases v with
    | infinity t => cases t <;> rfl
    | finite t m e hm => cases t <;> rfl
    | _ => rfl
  | finite s m e hm =>
    cases v with
    | finite t m' e' hm' =>
      have hthen : (compare e' e).then (compare m' m)
          = ((compare e e').then (compare m m')).swap := by
        rw [hint e e', hnat m m', Ordering.swap_then]
      cases s <;> cases t
      case positive.positive => exact congrArg some hthen
      case negative.negative => exact congrArg (fun o ↦ some o.swap) hthen
      all_goals rfl
    | infinity t => cases t <;> rfl
    | zero t => cases s <;> rfl
    | notANumber => rfl

theorem not_lt_of_le {x y : Float} (h : x ≤ y) : ¬ y < x := by
  have hle : (x.toModel.unpack.compare y.toModel.unpack).any (·.isLE) = true := of_decide_eq_true h
  intro hlt
  have hgt : (y.toModel.unpack.compare x.toModel.unpack == some .lt) = true := of_decide_eq_true hlt
  rw [compare_swap x.toModel.unpack] at hgt
  revert hle hgt
  rcases x.toModel.unpack.compare y.toModel.unpack with _ | _ | _ | _ <;> decide

end Scriptlet.Number
