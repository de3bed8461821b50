import Mathlib.Algebra.Order.Field.Rat
import Mathlib.Data.Rat.Cast.Order
import Mathlib.Tactic.FieldSimp
import Mathlib.Tactic.Positivity
import NumStack.Proofs.Shortest
import NumStack.Proofs.Values

/-!
# Rounding to nearest, ties to even

The specification of rounding, over rational numbers: a code is the rounding of a magnitude if no
other code of the format is nearer, and of two equally near ones it is the even one. Infinity takes
part with the magnitude that its code would have if the exponents went on, so that everything from
the midpoint above the greatest finite magnitude on becomes infinite. Exactly one code meets this,
and it is the one that `Format.nearest` computes.
-/

namespace NumStack

/-! ## Distances and midpoints -/

/-- A number is no further from the lower of two numbers exactly if it is at most their midpoint. -/
theorem abs_sub_le_abs_sub_iff_of_lt {a b q : ℚ} (h : a < b) :
    |q - a| ≤ |q - b| ↔ 2 * q ≤ a + b := by
  rw [← sq_le_sq]
  constructor
  · intro hsq
    nlinarith
  · intro hmid
    nlinarith

/-- A number is no further from the upper of two numbers exactly if it is at least their
midpoint. -/
theorem abs_sub_le_abs_sub_iff_of_gt {a b q : ℚ} (h : b < a) :
    |q - a| ≤ |q - b| ↔ a + b ≤ 2 * q := by
  rw [← sq_le_sq]
  constructor
  · intro hsq
    nlinarith
  · intro hmid
    nlinarith

namespace Format

variable (f : Format)

/-- The magnitude of a code. -/
def magnitude (c : Nat) : ℚ := f.units c / 2 ^ f.scale

theorem magnitude_strictMono : StrictMono f.magnitude := by
  intro c c' h
  have hunits : (f.units c : ℚ) < f.units c' := by exact_mod_cast f.units_strictMono h
  unfold magnitude
  gcongr

/-- The midpoint between a code and the next one. -/
def midpoint (c : Nat) : ℚ := (f.magnitude c + f.magnitude (c + 1)) / 2

theorem midpoint_eq (c : Nat) : f.midpoint c = f.twiceMid c / (2 * 2 ^ f.scale) := by
  unfold midpoint magnitude twiceMid
  push_cast
  field_simp

theorem midpoint_eq_natCast (c n : Nat) (h : f.twiceMid c = n * (2 * 2 ^ f.scale)) :
    f.midpoint c = n := by
  rw [midpoint_eq, h]
  push_cast
  exact mul_div_cancel_right₀ _ (by positivity)

/-- The exact value of `num / den` units. -/
def quotient (num den : Nat) : ℚ := num / (den * 2 ^ f.scale)

/-- **Staying below a midpoint**, as a comparison of exact values. -/
theorem staysBelow_iff (num den c : Nat) (hden : 0 < den) :
    f.StaysBelow num den c ↔ f.quotient num den < f.midpoint c ∨
      (f.quotient num den = f.midpoint c ∧ c % 2 = 0) := by
  have hpos : (0 : ℚ) < den := by exact_mod_cast hden
  have hscale : (0 : ℚ) < 2 * den * 2 ^ f.scale := by positivity
  -- both sides as whole numbers over one denominator
  have hquotient : ((2 * num : Nat) : ℚ) = f.quotient num den * (2 * den * 2 ^ f.scale) := by
    rw [quotient]
    push_cast
    field_simp
  have hmid : ((den * f.twiceMid c : Nat) : ℚ) = f.midpoint c * (2 * den * 2 ^ f.scale) := by
    rw [midpoint_eq]
    push_cast
    field_simp
  rw [StaysBelow, ← Nat.cast_lt (α := ℚ), ← Nat.cast_inj (R := ℚ), hquotient, hmid,
    mul_lt_mul_iff_left₀ hscale, mul_left_inj' hscale.ne']

/-- An odd code loses the tie, so the code chosen is at most an odd one exactly if the value lies
below the midpoint. -/
theorem nearest_le_iff_of_odd (hf : f.Regular) (num den c : Nat) (hden : 0 < den)
    (hc : c < f.infinity) (hodd : c % 2 = 1) :
    f.nearest num den ≤ c ↔ f.quotient num den < f.midpoint c := by
  rw [f.nearest_le_iff hf num den c hden hc, f.staysBelow_iff num den c hden]
  simp [hodd]

/-! ## The specification -/

/-- A code is as near to a magnitude as another code, and is even if the two are equally near. -/
def Prefers (q : ℚ) (c c' : Nat) : Prop :=
  |q - f.magnitude c| ≤ |q - f.magnitude c'| ∧
    (|q - f.magnitude c| = |q - f.magnitude c'| → c % 2 = 0)

/-- The code is the rounding of a magnitude to nearest, ties to even: it is preferred to every other
code of the format. -/
structure IsNearestEven (q : ℚ) (c : Nat) : Prop where
  le_infinity : c ≤ f.infinity
  prefers : ∀ c' ≤ f.infinity, c' ≠ c → f.Prefers q c c'

namespace IsNearestEven

variable {f} {q : ℚ} {c c' : Nat}

/-- Of two roundings neither is smaller: both would be even, and a code between them would be
nearer. -/
theorem ge (h : f.IsNearestEven q c) (h' : f.IsNearestEven q c') : c' ≤ c := by
  by_contra hnot
  have hlt : c < c' := not_le.1 hnot
  have hmono := f.magnitude_strictMono
  obtain ⟨hle, heven⟩ := h.prefers c' h'.le_infinity hlt.ne'
  obtain ⟨hle', heven'⟩ := h'.prefers c h.le_infinity hlt.ne
  have hdist := le_antisymm hle hle'
  have hgap : c + 1 < c' := by
    have hc := heven hdist
    have hc' := heven' hdist.symm
    omega
  have hupper := (abs_sub_le_abs_sub_iff_of_gt (hmono hlt)).1 hle'
  have hlower := (abs_sub_le_abs_sub_iff_of_lt (hmono c.lt_succ_self)).1
    (h.prefers (c + 1) (le_trans hlt h'.le_infinity) c.succ_ne_self).1
  have hbetween : f.magnitude (c + 1) < f.magnitude c' := hmono hgap
  linarith

/-- **At most one code is the rounding of a magnitude.** -/
theorem unique (h : f.IsNearestEven q c) (h' : f.IsNearestEven q c') : c = c' :=
  le_antisymm (h'.ge h) (h.ge h')

end IsNearestEven

/-! ## The rounding meets the specification -/

/-- The rounding of a value is preferred to a greater code: the value stays below the midpoint above
the rounding. -/
theorem nearest_prefers_of_lt (hf : f.Regular) (num den c : Nat) (hden : 0 < den)
    (hlt : f.nearest num den < c) (hc : c ≤ f.infinity) :
    f.Prefers (f.quotient num den) (f.nearest num den) c := by
  have hmono := f.magnitude_strictMono
  have hbelow := (f.staysBelow_iff num den _ hden).1
    ((f.nearest_le_iff hf num den _ hden (lt_of_lt_of_le hlt hc)).1 le_rfl)
  have hnext : f.magnitude (f.nearest num den + 1) ≤ f.magnitude c := hmono.monotone hlt
  rw [midpoint] at hbelow
  refine ⟨(abs_sub_le_abs_sub_iff_of_lt (hmono hlt)).2 ?_, fun htie => ?_⟩
  · rcases hbelow with h | ⟨h, -⟩ <;> linarith
  · have hupper := (abs_sub_le_abs_sub_iff_of_gt (hmono hlt)).1 htie.ge
    rcases hbelow with h | ⟨-, heven⟩
    · linarith
    · exact heven

/-- The rounding of a value is preferred to a smaller code: the value does not stay below the
midpoint under the rounding. -/
theorem nearest_prefers_of_gt (hf : f.Regular) (num den c : Nat) (hden : 0 < den)
    (hlt : c < f.nearest num den) : f.Prefers (f.quotient num den) (f.nearest num den) c := by
  have hmono := f.magnitude_strictMono
  have hle := f.nearest_le_infinity num den
  obtain ⟨d, hd⟩ : ∃ d, f.nearest num den = d + 1 := ⟨f.nearest num den - 1, by omega⟩
  have habove : ¬ f.StaysBelow num den d := by
    rw [← f.nearest_le_iff hf num den d hden (by omega)]
    omega
  rw [f.staysBelow_iff num den d hden, midpoint] at habove
  push Not at habove
  have hprev : f.magnitude c ≤ f.magnitude d := hmono.monotone (by omega)
  rw [hd] at hlt ⊢
  refine ⟨(abs_sub_le_abs_sub_iff_of_gt (hmono hlt)).2 (by linarith), fun htie => ?_⟩
  have hlower := (abs_sub_le_abs_sub_iff_of_lt (hmono hlt)).1 htie.ge
  have hodd := habove.2 (by linarith)
  omega

/-- **The rounding of a value meets the specification.** -/
theorem isNearestEven_nearest (hf : f.Regular) (num den : Nat) (hden : 0 < den) :
    f.IsNearestEven (f.quotient num den) (f.nearest num den) := by
  refine ⟨f.nearest_le_infinity num den, fun c hc hne => ?_⟩
  rcases lt_or_gt_of_ne hne with hlt | hgt
  · exact f.nearest_prefers_of_gt hf num den c hden hlt
  · exact f.nearest_prefers_of_lt hf num den c hden hgt hc

end Format

namespace Binary

variable {f : Format}

/-- The number is the rounding of a magnitude with the given sign, which a zero has too. -/
def IsNearestEven (x : Binary f) (negative : Bool) (q : ℚ) : Prop :=
  ∃ c h, x = number negative c h ∧ f.IsNearestEven q c

/-- **A rounded quotient is the one number that meets the specification.** -/
theorem isNearestEven_iff (hf : f.Regular) (x : Binary f) (s : Bool) (num den : Nat)
    (hden : 0 < den) : x.IsNearestEven s (f.quotient num den) ↔ x = ofRatio s num den := by
  have hnearest := f.isNearestEven_nearest hf num den hden
  constructor
  · rintro ⟨c, h, rfl, hc⟩
    obtain rfl := hc.unique hnearest
    rfl
  · rintro rfl
    exact ⟨_, _, rfl, hnearest⟩

end Binary

/-! ## Decimal fractions -/

/-- The exact value of a decimal fraction. -/
def Decimal.value (d : Decimal) : ℚ := d.numerator / 10 ^ d.places

/-- The value of a decimal fraction, counted in units. -/
theorem Format.quotient_decimal (f : Format) (d : Decimal) :
    f.quotient (d.numerator * 2 ^ f.scale) (10 ^ d.places) = d.value := by
  unfold quotient Decimal.value
  push_cast
  field_simp

/-- **A rounded decimal is the one number that meets the specification.** -/
theorem Binary.isNearestEven_decimal_iff {f : Format} (hf : f.Regular) (x : Binary f) (s : Bool)
    (d : Decimal) : x.IsNearestEven s d.value ↔ x = ofDecimal s d := by
  rw [← f.quotient_decimal d, isNearestEven_iff hf x s _ _ (by positivity), ofDecimal_eq]

end NumStack
