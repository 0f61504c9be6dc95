import Scriptlet.Number.Decimal

/-!
# Rounding decimals to doubles

Two facts about the rounding of quotients. It depends on the value of the quotient only, so a
decimal may be written with zeros at its end or without (`Decimal.pattern_mul_pow`). And a quotient
that is the value of a pattern is rounded to this pattern (`Binary64.nearest_units`).

The second fact is about the decimal that stands for a pattern exactly, on which the search for the
shortest one falls back. So whatever the search finds rounds to the pattern
(`Decimal.pattern_shortest`).
-/

namespace Scriptlet

/-! ## Rounding to integers -/

theorem roundHalfEven_mul (num den : Nat) {c : Nat} (hc : 0 < c) :
    roundHalfEven (num * c) (den * c) = roundHalfEven num den := by
  have htwice : 2 * (num % den * c) = 2 * (num % den) * c := (Nat.mul_assoc _ _ _).symm
  simp only [roundHalfEven, Nat.mul_div_mul_right _ _ hc, Nat.mul_mod_mul_right, htwice,
    Nat.mul_lt_mul_right hc]

theorem roundHalfEven_mul_self (n : Nat) {den : Nat} (hden : 0 < den) :
    roundHalfEven (n * den) den = n := by
  simp only [roundHalfEven, Nat.mul_mod_left, Nat.mul_zero, if_pos hden, Nat.mul_div_cancel n hden]

/-! ## Rounding to patterns -/

namespace Binary64

theorem nearest_mul (num den : Nat) {c : Nat} (hc : 0 < c) :
    nearest (num * c) (den * c) = nearest num den := by
  have hscaled : num * c * unitsPerOne = num * unitsPerOne * c := Nat.mul_right_comm ..
  have hgrid (k : Nat) : den * c * k = den * k * c := Nat.mul_right_comm ..
  simp only [nearest, hscaled, hgrid, Nat.mul_div_mul_right _ _ hc, roundHalfEven_mul _ _ hc]

theorem nearest_congr {num den num' den' : Nat} (hden : 0 < den) (hden' : 0 < den')
    (h : num * den' = num' * den) : nearest num den = nearest num' den' := by
  rw [← nearest_mul num den hden', h, Nat.mul_comm den den', nearest_mul num' den' hden]

theorem shift_mul_add_significand (p : Nat) : shift p * Nat.pow 2 52 + significand p = p := by
  simp only [shift, significand, Nat.pow_eq]
  omega

theorem significand_lt (p : Nat) : significand p < Nat.pow 2 53 := by
  simp only [shift, significand, Nat.pow_eq]
  omega

theorem significand_pos {p : Nat} (h : 0 < p) : 0 < significand p := by
  simp only [shift, significand, Nat.pow_eq]
  omega

/-- Only with shift zero is a significand below `2 ^ 52`. -/
theorem le_significand {p : Nat} (h : shift p ≠ 0) : Nat.pow 2 52 ≤ significand p := by
  simp only [shift, significand, Nat.pow_eq] at h ⊢
  omega

/-- The shift can be read off the value. -/
theorem log2_units (p : Nat) : (units p).log2 - 52 = shift p := by
  have hlt := significand_lt p
  simp only [Nat.pow_eq] at hlt
  -- with shift zero the significand may be short, and then the subtraction stops at zero
  by_cases hshift : shift p = 0
  · rw [units, hshift, Nat.pow_eq, Nat.pow_zero, Nat.mul_one]
    have hlog : (significand p).log2 < 53 := by
      rcases Nat.eq_zero_or_pos (significand p) with hzero | hpos
      · rw [hzero]
        decide
      · exact (Nat.log2_lt (Nat.ne_of_gt hpos)).mpr hlt
    omega
  · have hle := le_significand hshift
    simp only [Nat.pow_eq] at hle
    have hne : significand p ≠ 0 := by omega
    have hpos := Nat.two_pow_pos (shift p)
    have hlog : (units p).log2 = 52 + shift p := by
      rw [units, Nat.pow_eq, Nat.log2_eq_iff (Nat.mul_ne_zero hne (Nat.ne_of_gt hpos)),
        Nat.add_right_comm, Nat.pow_add, Nat.pow_add]
      exact ⟨Nat.mul_le_mul_right _ hle, Nat.mul_lt_mul_of_pos_right hlt hpos⟩
    omega

theorem unitsPerOne_pos : 0 < unitsPerOne := by
  unfold unitsPerOne
  generalize 1074 = n
  exact Nat.two_pow_pos n

theorem nearest_units {p : Nat} (h : p ≤ infinity) : nearest (units p) unitsPerOne = p := by
  have hgrid : 0 < unitsPerOne * Nat.pow 2 (shift p) :=
    Nat.mul_pos unitsPerOne_pos (Nat.two_pow_pos _)
  have hvalue : units p * unitsPerOne = significand p * (unitsPerOne * Nat.pow 2 (shift p)) := by
    rw [units, Nat.mul_assoc, Nat.mul_comm (Nat.pow 2 _)]
  -- the shift of the pattern is the one that is chosen, and on its grid the value is an integer
  simp only [nearest, Nat.mul_div_cancel _ unitsPerOne_pos, log2_units]
  rw [hvalue, roundHalfEven_mul_self _ hgrid, shift_mul_add_significand, Nat.min_eq_right h]

theorem units_lt_pow {p k : Nat} (h : shift p ≤ k) : units p < Nat.pow 2 (53 + k) := by
  calc units p < Nat.pow 2 53 * Nat.pow 2 (shift p) :=
        Nat.mul_lt_mul_of_pos_right (significand_lt p) (Nat.two_pow_pos _)
    _ ≤ Nat.pow 2 53 * Nat.pow 2 k :=
        Nat.mul_le_mul_left _ (Nat.pow_le_pow_right (by decide) h)
    _ = Nat.pow 2 (53 + k) := (Nat.pow_add 2 53 k).symm

theorem shift_le {p : Nat} (h : p < infinity) : shift p ≤ 2045 := by
  simp only [shift, infinity, Nat.pow_eq] at h ⊢
  omega

theorem units_pos {p : Nat} (h : 0 < p) : 0 < units p :=
  Nat.mul_pos (significand_pos h) (Nat.two_pow_pos _)

end Binary64

/-! ## Decimals -/

theorem digitCount_mono {n m : Nat} (h : n ≤ m) : digitCount n ≤ digitCount m := by
  have hpos : 0 < (Nat.toDigits 10 m).length := Nat.length_toDigits_pos
  have hm := (Nat.length_toDigits_le_iff (by decide) hpos).mp (Nat.le_refl _)
  rw [digitCount_eq, digitCount_eq, Nat.length_toDigits_le_iff (by decide) hpos]
  exact Nat.lt_of_le_of_lt h hm

theorem digitCount_mul_pow {n : Nat} (hn : 0 < n) (k : Nat) :
    digitCount (n * Nat.pow 10 k) = digitCount n + k := by
  have hpos : 0 < Nat.pow 10 k := Nat.pow_pos (by decide)
  rw [digitCount_eq, digitCount_eq, length_toDigits_div (Nat.le_mul_of_pos_left _ hn),
    Nat.mul_div_cancel n hpos, Nat.add_comm]

namespace Decimal

/-- Zeros at the end of the digits may be moved to the exponent. -/
theorem pattern_mul_pow (n k : Nat) (e : Int) :
    pattern ⟨n * Nat.pow 10 k, e⟩ = pattern ⟨n, e + k⟩ := by
  rcases Nat.eq_zero_or_pos n with rfl | hn
  · simp [pattern]
  have hpos (j : Nat) : 0 < Nat.pow 10 j := Nat.pow_pos (by decide)
  have hne : n * Nat.pow 10 k ≠ 0 := Nat.ne_of_gt (Nat.mul_pos hn (hpos k))
  have htop : ((digitCount n + k : Nat) : Int) + e = digitCount n + (e + k) := by omega
  have hvalue : n * Nat.pow 10 k * Nat.pow 10 e.toNat * Nat.pow 10 (-(e + k)).toNat
      = n * Nat.pow 10 (e + k).toNat * Nat.pow 10 (-e).toNat := by
    have hsum : k + e.toNat + (-(e + k)).toNat = (e + k).toNat + (-e).toNat := by omega
    simp only [Nat.pow_eq, Nat.mul_assoc, ← Nat.pow_add]
    rw [hsum]
  simp only [pattern, hne, Nat.ne_of_gt hn, false_or, digitCount_mul_pow hn, htop,
    Binary64.nearest_congr (hpos _) (hpos _) hvalue]

theorem pattern_le_infinity (d : Decimal) : d.pattern ≤ Binary64.infinity := by
  simp only [pattern]
  split
  · exact Nat.zero_le _
  · split
    · exact Nat.le_refl _
    · exact Nat.min_le_left _ _

/-- A decimal that is rounded to a positive finite pattern lies well within the range of doubles. -/
theorem bounds_of_pattern {d : Decimal} (hpos : 0 < d.pattern) (h : d.pattern < Binary64.infinity) :
    0 < d.digits ∧ -400 ≤ digitCount d.digits + d.exponent ∧
      digitCount d.digits + d.exponent ≤ 400 := by
  simp only [pattern] at hpos h
  split at hpos
  · exact absurd hpos (Nat.lt_irrefl 0)
  · rename_i hsmall
    rw [if_neg hsmall] at h
    split at h
    · exact absurd h (Nat.lt_irrefl _)
    · omega

theorem pattern_eq_nearest {d : Decimal} (hpos : 0 < d.digits)
    (hlow : -400 ≤ digitCount d.digits + d.exponent)
    (hhigh : digitCount d.digits + d.exponent ≤ 400) :
    d.pattern = Binary64.nearest (d.digits * Nat.pow 10 d.exponent.toNat)
      (Nat.pow 10 (-d.exponent).toNat) := by
  simp only [pattern]
  rw [if_neg (by omega), if_neg (by omega)]

theorem digits_exact (p : Nat) : (exact p).digits = Binary64.units p * Nat.pow 5 1074 := rfl

theorem exponent_exact (p : Nat) : (exact p).exponent = -1074 := rfl

theorem digits_exact_pos {p : Nat} (hp : 0 < p) : 0 < (exact p).digits := by
  have hfive : 0 < Nat.pow 5 1074 := by
    generalize 1074 = n
    exact Nat.pow_pos (by decide)
  rw [digits_exact]
  exact Nat.mul_pos (Binary64.units_pos hp) hfive

/-- The exact value of a positive pattern has more than `750` and at most `1474` digits; all but the
last `1074` stand before the point. -/
theorem digitCount_exact {p : Nat} (hp : 0 < p) (h : p < Binary64.infinity) :
    750 < digitCount (exact p).digits ∧ digitCount (exact p).digits ≤ 1474 := by
  have hlower : 750 < digitCount (Nat.pow 5 1074) := by decide +kernel
  have hupper : digitCount (Nat.pow 2 (53 + 2045) * Nat.pow 5 1074) ≤ 1474 := by decide +kernel
  have hlt := Binary64.units_lt_pow (Binary64.shift_le h)
  rw [digits_exact]
  constructor
  · have hle := Nat.le_mul_of_pos_left (Nat.pow 5 1074) (Binary64.units_pos hp)
    exact Nat.lt_of_lt_of_le hlower (digitCount_mono hle)
  · have hle := Nat.mul_le_mul_right (Nat.pow 5 1074) (Nat.le_of_lt hlt)
    exact Nat.le_trans (digitCount_mono hle) hupper

theorem pattern_exact {p : Nat} (hp : 0 < p) (h : p < Binary64.infinity) :
    (exact p).pattern = p := by
  obtain ⟨hlow, hhigh⟩ := digitCount_exact hp h
  have hexponent := exponent_exact p
  have hten : Nat.pow 5 1074 * Binary64.unitsPerOne = Nat.pow 10 (-(-1074 : Int)).toNat := by
    have hexp : (-(-1074 : Int)).toNat = 1074 := rfl
    unfold Binary64.unitsPerOne
    rewrite [hexp]
    generalize 1074 = n
    exact (Nat.mul_pow 5 2 n).symm
  have hone : Nat.pow 10 (-1074 : Int).toNat = 1 := rfl
  have hden (n : Nat) : 0 < Nat.pow 10 n := Nat.pow_pos (by decide)
  rw [pattern_eq_nearest (digits_exact_pos hp) (by omega) (by omega), hexponent, hone,
    Nat.mul_one, digits_exact]
  have hvalue : Binary64.units p * Nat.pow 5 1074 * Binary64.unitsPerOne
      = Binary64.units p * Nat.pow 10 (-(-1074 : Int)).toNat := by
    rw [Nat.mul_assoc, hten]
  rw [Binary64.nearest_congr (hden _) Binary64.unitsPerOne_pos hvalue]
  exact Binary64.nearest_units (Nat.le_of_lt h)

theorem pattern_shortest {p : Nat} (hp : 0 < p) (h : p < Binary64.infinity) :
    (shortest p).pattern = p := by
  rcases hfound : (candidates p).find? fun d ↦ d.pattern = p with _ | d
  · rw [shortest, hfound, Option.getD_none, pattern_exact hp h]
  · rw [shortest, hfound, Option.getD_some]
    simpa using List.find?_some hfound

theorem bounds_shortest {p : Nat} (hp : 0 < p) (h : p < Binary64.infinity) :
    0 < (shortest p).digits ∧
      -400 ≤ digitCount (shortest p).digits + (shortest p).exponent ∧
      digitCount (shortest p).digits + (shortest p).exponent ≤ 400 := by
  apply bounds_of_pattern
  · rwa [pattern_shortest hp h]
  · rwa [pattern_shortest hp h]

end Decimal

end Scriptlet
