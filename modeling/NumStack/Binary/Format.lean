/-!
# Binary formats

A binary floating-point format has finitely many magnitudes. Listed in ascending order they are
numbered `0, 1, 2, ...`; this number is the *code* of a magnitude: `0` is zero, `1` the least
positive magnitude, and the last code is infinity. Every finite magnitude is a whole number of
*units*, a unit being the least positive magnitude `2 ^ -scale`, so exact values are natural numbers
and every quotient of natural numbers can be rounded to the nearest code.
-/

namespace NumStack

/-! ## Rounding a quotient -/

/-- The quotient `num / den` rounded to the nearest natural number, a tie to the even one. -/
def roundDiv (num den : Nat) : Nat :=
  if 2 * (num % den) < den ∨ (2 * (num % den) = den ∧ num / den % 2 = 0) then num / den
  else num / den + 1

theorem roundDiv_le (num den : Nat) : roundDiv num den ≤ num / den + 1 := by
  unfold roundDiv
  split <;> omega

theorem le_roundDiv (num den : Nat) : num / den ≤ roundDiv num den := by
  unfold roundDiv
  split <;> omega

/-! ## Formats -/

/-- A binary floating-point format: the bits of its significand after the leading one, and of its
exponent. -/
structure Format where
  fractionBits : Nat
  exponentBits : Nat
  deriving DecidableEq, Repr

namespace Format

/-- Single precision. -/
def single : Format := ⟨23, 8⟩

/-- Double precision. -/
def double : Format := ⟨52, 11⟩

/-! ## Codes and units -/

/-- The number of codes from one power of two up to the next. -/
def binade (f : Format) : Nat := Nat.pow 2 f.fractionBits

theorem binade_pos (f : Format) : 0 < f.binade :=
  Nat.two_pow_pos _

/-- The binary places of a unit: the least positive magnitude is `2 ^ -scale`. -/
def scale (f : Format) : Nat := Nat.pow 2 (f.exponentBits - 1) + f.fractionBits - 2

/-- The code of infinity, the greatest code. -/
def infinity (f : Format) : Nat := (Nat.pow 2 f.exponentBits - 1) * f.binade

/-- The magnitude of a code, in units. Below the first binade codes and units agree; each later
binade doubles the distance between neighbours. -/
def units (f : Format) (code : Nat) : Nat :=
  if code < f.binade then code
  else (f.binade + code % f.binade) * Nat.pow 2 (code / f.binade - 1)

/-- The code nearest to `num / den` units, a tie to the even code. A significand that rounds up to
the next power of two carries into the following binade by itself, and everything beyond the largest
finite magnitude becomes infinity. -/
def nearest (f : Format) (num den : Nat) : Nat :=
  let shift := (num / den).log2 - f.fractionBits
  min f.infinity (roundDiv num (den * Nat.pow 2 shift) + shift * f.binade)

theorem nearest_le_infinity (f : Format) (num den : Nat) : f.nearest num den ≤ f.infinity :=
  Nat.min_le_left _ _

theorem nearest_zero (f : Format) (den : Nat) : f.nearest 0 den = 0 := by
  have h : roundDiv 0 den = 0 := by simp [roundDiv]; omega
  simp [nearest, h]

theorem units_zero (f : Format) : f.units 0 = 0 :=
  if_pos f.binade_pos

end Format

end NumStack
