import NumStack.Proofs.Literals
import NumStack.Proofs.NearestEven

/-!
# Where single precision overflows

A decimal rounded to single precision is infinite from the midpoint above the greatest single on.
Rounded to a double first and then to a single, it is infinite a little earlier: the midpoint is
itself a double, and what rounds up to this double is taken for the midpoint. So a decimal that
survives both roundings survives the one, while just below the midpoint the converse fails.
-/

namespace NumStack

/-- The midpoint above the greatest single: from here on, magnitudes are rounded to infinity. -/
def overflowLimit : ℚ := 2 ^ 128 - 2 ^ 103

/-- The midpoint below the double that lies at `overflowLimit`: from here on, magnitudes are rounded
to a double that is rounded to infinity. -/
def checkLimit : ℚ := 2 ^ 128 - 2 ^ 103 - 2 ^ 74

/-- Rounding twice overflows earlier. -/
theorem checkLimit_lt_overflowLimit : checkLimit < overflowLimit := by
  norm_num [checkLimit, overflowLimit]

namespace Format

theorem single_midpoint_largest : single.midpoint (single.infinity - 1) = overflowLimit := by
  rw [single.midpoint_eq_natCast _ (2 ^ 128 - 2 ^ 103) (by decide +kernel)]
  norm_num [overflowLimit]

/-- The code of the double that lies at `overflowLimit`. -/
def overflowCode : Nat := 1151 * 2 ^ 52 - 2 ^ 28

theorem double_midpoint_pred_overflowCode : double.midpoint (overflowCode - 1) = checkLimit := by
  rw [double.midpoint_eq_natCast _ (2 ^ 128 - 2 ^ 103 - 2 ^ 74) (by decide +kernel)]
  norm_num [checkLimit]

end Format

namespace Binary

open Format

/-- **Rounding once.** A decimal is rounded to a finite single exactly below the midpoint above the
greatest one. -/
theorem isFinite_single_iff (s : Bool) (d : Decimal) :
    (ofDecimal s d : Single).isFinite = true ↔ d.value < overflowLimit := by
  have hodd := single.nearest_le_iff_of_odd single_regular (d.numerator * 2 ^ single.scale)
    (10 ^ d.places) (single.infinity - 1) (by positivity) (by decide) (by decide)
  rw [single.quotient_decimal, single_midpoint_largest] at hodd
  rw [← hodd, ofDecimal_eq, ofRatio, isFinite, decide_eq_true_iff]
  exact Nat.lt_iff_le_pred (by decide)

/-- A double is converted to a finite single exactly below the double at the midpoint. -/
theorem isFinite_convert_iff (s : Bool) (c : Nat) (h : c ≤ double.infinity) :
    ((number s c h : Double).convert : Single).isFinite = true ↔ c < overflowCode := by
  have hinfinite : ((number false overflowCode (by decide) : Double).convert :
      Single).isFinite = false := by
    decide +kernel
  have hfinite : ((number false (overflowCode - 1) (by decide) : Double).convert :
      Single).isFinite = true := by
    decide +kernel
  constructor
  · intro hconverted
    by_contra hnot
    have hover := isFinite_convert_of_code_le single_regular false s overflowCode c (by decide) h
      (not_lt.1 hnot) hconverted
    rw [hinfinite] at hover
    cases hover
  · intro hlt
    exact isFinite_convert_of_code_le single_regular s false c _ h _ (Nat.le_pred_of_lt hlt) hfinite

/-- **Rounding twice.** A decimal rounded to a double is converted to a finite single exactly below
the midpoint below the double at `overflowLimit`. -/
theorem isFinite_convert_decimal_iff (s : Bool) (d : Decimal) :
    ((ofDecimal s d : Double).convert : Single).isFinite = true ↔ d.value < checkLimit := by
  have hodd := double.nearest_le_iff_of_odd double_regular (d.numerator * 2 ^ double.scale)
    (10 ^ d.places) (overflowCode - 1) (by positivity) (by decide) (by decide)
  rw [double.quotient_decimal, double_midpoint_pred_overflowCode] at hodd
  rw [← hodd, ofDecimal_eq, ofRatio, isFinite_convert_iff]
  exact Nat.lt_iff_le_pred (by decide)

/-- **Double rounding does not hide an overflow.** A decimal whose double is converted to a finite
single is rounded to a finite single, though not always to the same one. -/
theorem isFinite_of_convert (s : Bool) (d : Decimal)
    (h : ((ofDecimal s d : Double).convert : Single).isFinite = true) :
    (ofDecimal s d : Single).isFinite = true := by
  rw [isFinite_single_iff]
  exact lt_trans ((isFinite_convert_decimal_iff s d).1 h) checkLimit_lt_overflowLimit

end Binary

end NumStack
