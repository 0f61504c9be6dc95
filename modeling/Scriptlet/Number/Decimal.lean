/-!
# Decimals and doubles

A finite double is, up to its sign, a multiple of the least positive one, `2 ^ -1074`. Writing that
multiple as `significand * 2 ^ shift` with a significand below `2 ^ 53`, and with shift zero when it
is below `2 ^ 52`, its bit pattern is `shift * 2 ^ 52 + significand`. The order of patterns is the
order of values, and one more than the largest finite pattern stands for infinity. `nearest` rounds
a quotient of natural numbers to such a pattern. All arithmetic is exact, so its answer is the
correctly rounded one, ties going to the even pattern.

A decimal is a natural number times a power of ten. `Decimal.pattern` rounds it to the nearest
double, and `shortest` finds, for a double, the decimal with the fewest digits that rounds to it.

The search goes through the decimals with one digit, two digits and so on up to seventeen. With a
given number of digits only the two neighbours of the value can round to it, and of these the nearer
is preferred, the upper one when both are equally near. Should none be found the exact value itself
is taken, so that the result reads back in any case.
-/

namespace Scriptlet

/-! ## Magnitudes of doubles -/

/-- The integer nearest to `num / den`, a tie going to the even one. -/
def roundHalfEven (num den : Nat) : Nat :=
  let floor := num / den
  let twice := 2 * (num % den)
  if twice < den then floor
  else if den < twice then floor + 1
  else floor + floor % 2

namespace Binary64

/-- The pattern of infinity, which is above all finite ones. -/
def infinity : Nat := 2047 * Nat.pow 2 52

/-- The denominator of all finite values: one over the least positive value. -/
def unitsPerOne : Nat := Nat.pow 2 1074

/-- The power of two that the significand is multiplied with. -/
def shift (pattern : Nat) : Nat := pattern / Nat.pow 2 52 - 1

def significand (pattern : Nat) : Nat := pattern - shift pattern * Nat.pow 2 52

/-- The value of a finite pattern, in units of the least positive value. -/
def units (pattern : Nat) : Nat := significand pattern * Nat.pow 2 (shift pattern)

/-- The pattern of the double nearest to `num / den`; `den` is positive. Values too large for a
finite pattern give infinity. -/
def nearest (num den : Nat) : Nat :=
  let scaled := num * unitsPerOne
  let shift := (scaled / den).log2 - 52
  min infinity (shift * Nat.pow 2 52 + roundHalfEven scaled (den * Nat.pow 2 shift))

end Binary64

/-! ## Decimals -/

/-- The number `digits * 10 ^ exponent`. -/
structure Decimal where
  digits : Nat
  exponent : Int
deriving DecidableEq, Repr, Inhabited

/-- How many decimal digits a natural number below `10 ^ 2 ^ k` has. Each step halves the digits
that are left to count. -/
def digitCountBelow : Nat → Nat → Nat
  | 0, _ => 1
  | k + 1, n =>
    if n < Nat.pow 10 (Nat.pow 2 k) then digitCountBelow k n
    else Nat.pow 2 k + digitCountBelow k (n / Nat.pow 10 (Nat.pow 2 k))

def digitCount (n : Nat) : Nat := digitCountBelow (n.log2.log2 + 1) n

/-- Division by `10 ^ a` takes away `a` digits, if there are more. -/
theorem length_toDigits_div {n a : Nat} (h : Nat.pow 10 a ≤ n) :
    (Nat.toDigits 10 n).length = a + (Nat.toDigits 10 (n / Nat.pow 10 a)).length := by
  rw [Nat.pow_eq] at h ⊢
  have shift (j : Nat) : n / 10 ^ a < 10 ^ j ↔ n < 10 ^ (a + j) := by
    rw [Nat.div_lt_iff_lt_mul (Nat.pow_pos (by decide)), Nat.pow_add, Nat.mul_comm]
  have positive (m : Nat) : 0 < (Nat.toDigits 10 m).length := Nat.length_toDigits_pos
  have more : a < (Nat.toDigits 10 n).length := by
    rcases Nat.eq_zero_or_pos a with rfl | ha
    · exact positive n
    · exact Nat.lt_of_not_le fun le ↦
        Nat.not_lt.2 h ((Nat.length_toDigits_le_iff (by decide) ha).1 le)
  have upper := (Nat.length_toDigits_le_iff (by decide) (Nat.add_pos_right a (positive _))).2
    ((shift _).1 ((Nat.length_toDigits_le_iff (by decide) (positive _)).1 (Nat.le_refl _)))
  have lower : (Nat.toDigits 10 (n / 10 ^ a)).length ≤ (Nat.toDigits 10 n).length - a := by
    rw [Nat.length_toDigits_le_iff (by decide) (by omega), shift, Nat.add_sub_cancel' (by omega)]
    exact (Nat.length_toDigits_le_iff (by decide) (by omega)).1 (Nat.le_refl _)
  omega

theorem digitCountBelow_eq {k n : Nat} (h : n < Nat.pow 10 (Nat.pow 2 k)) :
    digitCountBelow k n = (Nat.toDigits 10 n).length := by
  induction k generalizing n with
  | zero =>
    have := (Nat.length_toDigits_le_iff (b := 10) (n := n) (k := 1) (by decide) (by decide)).2 h
    have : 0 < (Nat.toDigits 10 n).length := Nat.length_toDigits_pos
    simp only [digitCountBelow]
    omega
  | succ k ih =>
    rw [digitCountBelow]
    split
    · exact ih ‹_›
    · rw [length_toDigits_div (Nat.not_lt.1 ‹_›), ih]
      simp only [Nat.pow_eq] at h ⊢
      rw [Nat.div_lt_iff_lt_mul (Nat.pow_pos (by decide)), ← Nat.pow_add, ← Nat.two_mul,
        ← Nat.pow_succ']
      exact h

/-- Counting by halves agrees with writing the digits out. -/
theorem digitCount_eq (n : Nat) : digitCount n = (Nat.toDigits 10 n).length := by
  apply digitCountBelow_eq
  calc n < 2 ^ (n.log2 + 1) := Nat.lt_log2_self
    _ ≤ 2 ^ 2 ^ (n.log2.log2 + 1) := Nat.pow_le_pow_right (by decide) Nat.lt_log2_self
    _ ≤ 10 ^ 2 ^ (n.log2.log2 + 1) := Nat.pow_le_pow_left (by decide) _

namespace Decimal

/-- The bit pattern of the double nearest to a decimal. Beyond `10 ^ 400` and below `10 ^ -400` the
answer is clear from the number of digits, and no large power is computed. -/
def pattern (d : Decimal) : Nat :=
  let top := digitCount d.digits + d.exponent
  if d.digits = 0 ∨ top < -400 then 0
  else if 400 < top then Binary64.infinity
  else Binary64.nearest (d.digits * Nat.pow 10 d.exponent.toNat) (Nat.pow 10 (-d.exponent).toNat)

/-- The value of a finite pattern as a decimal, exactly. -/
def exact (pattern : Nat) : Decimal := ⟨Binary64.units pattern * Nat.pow 5 1074, -1074⟩

/-- The value of a finite pattern in units of `10 ^ -400`, rounded down. Every positive value has
more than seventy digits in these units. -/
def scaled (pattern : Nat) : Nat := Binary64.units pattern * Nat.pow 10 400 / Binary64.unitsPerOne

/-- The two decimals with `count` digits around `scaled * 10 ^ -400`, where `scaled` has `total`
digits; the preferred one comes first. -/
def neighbours (scaled total count : Nat) : List Decimal :=
  let grid := Nat.pow 10 (total - count)
  let lower := scaled / grid
  let exponent : Int := (total - count : Nat) - 400
  if grid ≤ 2 * (scaled % grid) then [⟨lower + 1, exponent⟩, ⟨lower, exponent⟩]
  else [⟨lower, exponent⟩, ⟨lower + 1, exponent⟩]

/-- The decimals that are tried for a pattern, in order. -/
def candidates (pattern : Nat) : List Decimal :=
  let scaled := scaled pattern
  let total := digitCount scaled
  (List.range 17).flatMap fun i ↦ neighbours scaled total (i + 1)

/-- The shortest decimal that rounds to a positive finite pattern. -/
def shortest (pattern : Nat) : Decimal :=
  ((candidates pattern).find? fun d ↦ d.pattern = pattern).getD (exact pattern)

end Decimal

end Scriptlet
