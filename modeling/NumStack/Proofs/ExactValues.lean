import Mathlib.Data.Rat.Floor
import NumStack.Operand
import NumStack.Proofs.FiniteOperands
import NumStack.Proofs.NearestEven

/-!
# Exact results of arithmetic

Finite numbers have rational values, and each arithmetic operation has an exact result on them. In
every format an operation on finite numbers is its exact result rounded once, unless it divides by
zero. Operands keep their values when they are widened, so that arithmetic on operands computes the
exact result rounded to a double before the result is narrowed.
-/

namespace NumStack

/-! ## Operations on rational numbers -/

/-- A rational number truncated toward zero. -/
def truncated (q : ℚ) : ℤ := if 0 ≤ q then ⌊q⌋ else ⌈q⌉

/-- A quotient by a positive integer is truncated as integers are divided. -/
theorem truncated_div_natCast (m : ℤ) (d : ℕ) (hd : 0 < d) : truncated (m / d) = m.tdiv d := by
  have hpos : (0 : ℚ) < d := by exact_mod_cast hd
  rw [truncated]
  split
  · rename_i hnonneg
    have hm : 0 ≤ m := by
      have hle : (0 : ℚ) ≤ m := by
        have := mul_nonneg hnonneg hpos.le
        rwa [div_mul_cancel₀ _ hpos.ne'] at this
      exact_mod_cast hle
    rw [Rat.floor_intCast_div_natCast, Int.tdiv_eq_ediv_of_nonneg hm]
  · rename_i hneg
    have hm : 0 ≤ -m := by
      by_contra hnot
      exact hneg (div_nonneg (by exact_mod_cast (by omega : 0 ≤ m)) hpos.le)
    rw [Rat.ceil_intCast_div_natCast, ← Int.tdiv_eq_ediv_of_nonneg hm, Int.neg_tdiv, neg_neg]

/-- A quotient of integers is truncated as integers are divided. -/
theorem truncated_div (m n : ℤ) (hn : n ≠ 0) : truncated (m / n) = m.tdiv n := by
  rcases lt_or_gt_of_ne hn with hneg | hpos
  · -- the sign of the divisor is moved to the dividend
    obtain ⟨d, rfl⟩ : ∃ d : ℕ, n = -d := ⟨n.natAbs, by omega⟩
    have hquotient : (m : ℚ) / ((-d : ℤ) : ℚ) = ((-m : ℤ) : ℚ) / d := by
      push_cast
      rw [div_neg, neg_div]
    rw [hquotient, truncated_div_natCast _ d (by omega), Int.neg_tdiv, Int.tdiv_neg]
  · obtain ⟨d, rfl⟩ : ∃ d : ℕ, n = d := ⟨n.toNat, by omega⟩
    exact truncated_div_natCast m d (by omega)

namespace Operation

/-- The operation on rational numbers. A remainder is what the quotient truncated toward zero
leaves. -/
def onRationals : Operation → ℚ → ℚ → ℚ
  | add => fun a b => a + b
  | sub => fun a b => a - b
  | mul => fun a b => a * b
  | div => fun a b => a / b
  | mod => fun a b => a - b * truncated (a / b)

/-- The operation on the numbers of a format. -/
def onBinaries {f : Format} : Operation → Binary f → Binary f → Binary f
  | add => Binary.add
  | sub => Binary.sub
  | mul => Binary.mul
  | div => Binary.div
  | mod => Binary.rem

/-- On doubles it is the operation that operands are combined with. -/
theorem onBinaries_double (op : Operation) : op.onBinaries = op.onDoubles := by
  cases op <;> rfl

end Operation

namespace Binary

variable {f : Format}

/-! ## Values of numbers -/

/-- The exact value of a finite number. -/
def value (x : Binary f) : ℚ := x.signedUnits / 2 ^ f.scale

theorem value_eq_zero_iff (x : Binary f) (hx : x.isFinite = true) :
    x.value = 0 ↔ x.isZero = true := by
  obtain ⟨s, c, h, rfl, -⟩ := exists_number_of_isFinite x hx
  have hpow : (2 : ℚ) ^ f.scale ≠ 0 := by positivity
  rw [value, div_eq_zero_iff, or_iff_left hpow, Int.cast_eq_zero, signedUnits_eq_zero_iff]
  exact beq_iff_eq.symm

/-- A finite number is the rounding of its own value. -/
theorem isRounded_signedUnits (hf : f.Regular) (x : Binary f) (hx : x.isFinite = true) :
    x.IsRounded x.signedUnits 1 := by
  obtain ⟨s, c, h, rfl, -⟩ := exists_number_of_isFinite x hx
  refine ⟨s, ?_, fun hne => sign_eq_decide s c h ((signedUnits_eq_zero_iff s c h).not.1 hne)⟩
  have hexact := f.nearest_units hf c 1 Nat.one_pos h
  rw [mul_one] at hexact
  simp only [natAbs_signedUnits, ofRatio, hexact]

/-! ## Roundings of rational numbers -/

/-- The number is a rational number rounded once, to nearest with ties to even, and has its sign.
The sign of an exact zero is left open. -/
def Rounds (x : Binary f) (q : ℚ) : Prop :=
  ∃ s, x.IsNearestEven s |q| ∧ (q ≠ 0 → s = decide (q < 0))

theorem abs_eq_quotient (num : ℤ) (den : ℕ) :
    |(num : ℚ) / (den * 2 ^ f.scale)| = f.quotient num.natAbs den := by
  have hden : (0 : ℚ) ≤ den * 2 ^ f.scale := by positivity
  rw [abs_div, abs_of_nonneg hden, Format.quotient, Nat.cast_natAbs, Int.cast_abs]

/-- **A rounding of units is a rounding of a rational number.** -/
theorem IsRounded.rounds (hf : f.Regular) {x : Binary f} {num : ℤ} {den : ℕ} (hden : 0 < den)
    (hx : x.IsRounded num den) : x.Rounds (num / (den * 2 ^ f.scale)) := by
  obtain ⟨s, rfl, hs⟩ := hx
  have hpos : (0 : ℚ) < den * 2 ^ f.scale := by positivity
  refine ⟨s, ?_, fun hne => ?_⟩
  · rw [abs_eq_quotient]
    exact (isNearestEven_iff hf _ s num.natAbs den hden).2 rfl
  · have hnum : num ≠ 0 := by
      rintro rfl
      simp at hne
    rw [hs hnum, decide_eq_decide, div_neg_iff]
    simp [hpos, hpos.le]

/-- An exact value is compared with the value of a number by their units. -/
theorem exact_lt_value_iff (g : Binary f) (num : ℤ) (den : ℕ) (hden : 0 < den) :
    ((num : ℚ) / (den * 2 ^ f.scale) < g.value ↔ num < g.signedUnits * den) ∧
      (g.value < num / (den * 2 ^ f.scale) ↔ g.signedUnits * den < num) := by
  have hpos : (0 : ℚ) < den := by exact_mod_cast hden
  have hvalue : g.value = (g.signedUnits * den : ℤ) / (den * 2 ^ f.scale) := by
    rw [value]
    push_cast
    field_simp
  rw [hvalue, div_lt_div_iff_of_pos_right (by positivity),
    div_lt_div_iff_of_pos_right (by positivity)]
  exact ⟨Int.cast_lt, Int.cast_lt⟩

/-- **Roundings do not pass finite numbers.** A finite number that is below the rounding is below
the exact value, and one that is above the rounding is above it. -/
theorem IsRounded.value_lt_and_lt_value (hf : f.Regular) {x : Binary f} {num : ℤ} {den : ℕ}
    (hden : 0 < den) (hx : x.IsRounded num den) (g : Binary f) (hg : g.isFinite = true) :
    (g.signedUnits < x.signedUnits → g.value < num / (den * 2 ^ f.scale)) ∧
      (x.signedUnits < g.signedUnits → num / (den * 2 ^ f.scale) < g.value) := by
  obtain ⟨hbelow, habove⟩ := g.exact_lt_value_iff num den hden
  have hself := isRounded_signedUnits hf g hg
  rw [hbelow, habove]
  constructor
  · intro h
    by_contra hnot
    have hle := hx.signedUnits_mono hf hself hden Nat.one_pos (by simpa using hnot)
    exact absurd hle (not_le.2 h)
  · intro h
    by_contra hnot
    have hle := hself.signedUnits_mono hf hx Nat.one_pos hden (by simpa using hnot)
    exact absurd hle (not_le.2 h)

/-- A remainder of values, from the remainder of the units. -/
theorem tmod_eq_onRationals (x y : Binary f) (hy : y.signedUnits ≠ 0) :
    ((x.signedUnits.tmod y.signedUnits : ℤ) : ℚ) / 2 ^ f.scale =
      Operation.mod.onRationals x.value y.value := by
  have hpow : (2 : ℚ) ^ f.scale ≠ 0 := by positivity
  have hquotient : x.value / y.value = x.signedUnits / y.signedUnits := by
    rw [value, value, div_div_div_cancel_right₀ hpow]
  show _ = x.value - y.value * (truncated (x.value / y.value) : ℤ)
  rw [hquotient, truncated_div _ _ hy, Int.tmod_def, value, value]
  push_cast
  ring

/-- **An operation on finite numbers is its exact result rounded once**, unless it divides by
zero. -/
theorem onBinaries_isRounded (op : Operation) (x y : Binary f) (hx : x.isFinite = true)
    (hy : y.isFinite = true) (hdiv : op.divides = true → y.isZero = false) :
    ∃ (num : ℤ) (den : ℕ), 0 < den ∧ (op.onBinaries x y).IsRounded num den ∧
      (num : ℚ) / (den * 2 ^ f.scale) = op.onRationals x.value y.value := by
  have hpow : (2 : ℚ) ^ f.scale ≠ 0 := by positivity
  have hzero : y.isZero = false → y.signedUnits ≠ 0 := by
    obtain ⟨t, b, hb, rfl, -⟩ := exists_number_of_isFinite y hy
    intro h
    exact (signedUnits_eq_zero_iff t b hb).not.2 (by simpa [isZero] using h)
  cases op with
  | add =>
    refine ⟨_, _, Nat.one_pos, x.add_isRounded y hx hy, ?_⟩
    show _ = x.value + y.value
    rw [value, value]
    push_cast
    ring
  | sub =>
    refine ⟨_, _, Nat.one_pos, x.sub_isRounded y hx hy, ?_⟩
    show _ = x.value - y.value
    rw [value, value]
    push_cast
    ring
  | mul =>
    refine ⟨_, _, Nat.two_pow_pos _, x.mul_isRounded y hx hy, ?_⟩
    show _ = x.value * y.value
    rw [value, value]
    push_cast
    ring
  | div =>
    have hv := hzero (hdiv rfl)
    refine ⟨_, _, Int.natAbs_pos.2 hv, x.div_isRounded y hx hy (hdiv rfl), ?_⟩
    show _ = x.value / y.value
    -- the divisor's magnitude is the divisor times its sign
    have hsign : (y.signedUnits.sign : ℚ) ≠ 0 := by
      exact_mod_cast Int.sign_eq_zero_iff_zero.not.2 hv
    have habs : ((y.signedUnits.natAbs : ℕ) : ℚ) = y.signedUnits.sign * y.signedUnits := by
      rw [← Int.cast_mul, Int.sign_mul_self_eq_natAbs, Int.cast_natCast]
    have hv' : (y.signedUnits : ℚ) ≠ 0 := by exact_mod_cast hv
    rw [habs, value, value]
    push_cast
    field_simp
  | mod =>
    have hv := hzero (hdiv rfl)
    refine ⟨_, _, Nat.one_pos, x.rem_isRounded y hx hy (hdiv rfl), ?_⟩
    rw [Nat.cast_one, one_mul]
    exact tmod_eq_onRationals x y hv

end Binary

namespace Operand

/-! ## Values of operands -/

/-- The exact value of a finite operand. -/
def value : Operand → ℚ
  | int8 n => n.toInt
  | int16 n => n.toInt
  | int32 n => n.toInt
  | float x => x.value
  | double x => x.value

theorem value_of_int? (v : Operand) (n : ℤ) (h : v.int? = some n) : v.value = n := by
  cases v with
  | int8 m => cases h; rfl
  | int16 m => cases h; rfl
  | int32 m => cases h; rfl
  | float x => cases h
  | double x => cases h

/-- An integer operand is widened to a finite double of its value. -/
theorem wide_exact_of_int? (v : Operand) (n : ℤ) (h : v.int? = some n) :
    v.wide.isFinite = true ∧ v.wide.value = v.value := by
  obtain ⟨hk, hlow, hup⟩ := v.range_of_int? n h
  obtain ⟨hrange, -, -⟩ := v.kind.range_of_isInteger hk
  have hbound := (bound_natAbs_le v.kind hk).1
  obtain ⟨hfinite, hunits⟩ := Binary.ofInt_exact Format.double_regular n (by omega)
  rw [v.wide_of_int? n h, v.value_of_int? n h]
  refine ⟨hfinite, ?_⟩
  rw [Binary.value, hunits]
  push_cast
  exact mul_div_cancel_right₀ _ (by positivity)

/-- A finite single is widened to a finite double of its value. -/
theorem convert_exact (x : Single) (hx : x.isFinite = true) :
    (x.convert : Double).isFinite = true ∧ (x.convert : Double).value = x.value := by
  obtain ⟨s, c, h, rfl, hlt⟩ := Binary.exists_number_of_isFinite x hx
  obtain ⟨hfinite, hunits⟩ := Binary.units_nearest_wide c hlt
  rw [Binary.convert_of_lt s c h hlt, Binary.ofRatio]
  refine ⟨decide_eq_true hfinite, ?_⟩
  have hcast : (Format.double.units (Format.double.nearest
      (Format.single.units c * 2 ^ Format.double.scale) (2 ^ Format.single.scale)) : ℚ) *
        2 ^ Format.single.scale = Format.single.units c * 2 ^ Format.double.scale := by
    exact_mod_cast hunits
  rw [Binary.value, Binary.value, div_eq_div_iff (by positivity) (by positivity),
    Binary.signedUnits_number, Binary.signedUnits_number]
  cases s with
  | false => simpa using hcast
  | true => simpa using hcast

/-- **Widening keeps the value** of a finite operand. -/
theorem wide_exact (v : Operand) (hv : v.isFinite = true) :
    v.wide.isFinite = true ∧ v.wide.value = v.value := by
  cases v with
  | int8 n => exact wide_exact_of_int? _ n.toInt rfl
  | int16 n => exact wide_exact_of_int? _ n.toInt rfl
  | int32 n => exact wide_exact_of_int? _ n.toInt rfl
  | float x => exact convert_exact x hv
  | double x => exact ⟨hv, rfl⟩

theorem isZero_iff (v : Operand) (hv : v.isFinite = true) : v.isZero = true ↔ v.value = 0 := by
  obtain ⟨hfinite, hvalue⟩ := v.wide_exact hv
  rw [isZero, ← hvalue]
  exact (v.wide.value_eq_zero_iff hfinite).symm

end Operand

/-- **Arithmetic on finite operands computes the exact result, rounded to a double.** -/
theorem Operation.onDoubles_isRounded (op : Operation) (a b : Operand) (ha : a.isFinite = true)
    (hb : b.isFinite = true) (hdiv : ¬ (op.divides = true ∧ b.value = 0)) :
    ∃ (num : ℤ) (den : ℕ), 0 < den ∧ (op.onDoubles a.wide b.wide).IsRounded num den ∧
      (num : ℚ) / (den * 2 ^ Format.double.scale) = op.onRationals a.value b.value := by
  obtain ⟨hfa, hva⟩ := a.wide_exact ha
  obtain ⟨hfb, hvb⟩ := b.wide_exact hb
  rw [← op.onBinaries_double, ← hva, ← hvb]
  apply Binary.onBinaries_isRounded op _ _ hfa hfb
  intro hdivides
  rw [← Bool.not_eq_true, ← b.wide.value_eq_zero_iff hfb, hvb]
  exact fun hzero => hdiv ⟨hdivides, hzero⟩

end NumStack
