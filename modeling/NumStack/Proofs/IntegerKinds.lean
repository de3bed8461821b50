import NumStack.Operand
import NumStack.Proofs.Values

/-!
# Integer kinds

The integer kinds hold the integers of a range that is symmetric but for its least element. Every
bound fits the significand of a double, so the bounds check compares exact values: a double passes
if it lies in the range, and is then truncated to an integer of the range.
-/

namespace NumStack

namespace Kind

/-! ## Ranges -/

/-- The least integer of an integer kind; the other kinds hold no range of integers. -/
def lower : Kind → Int
  | int8 => -128
  | int16 => -32768
  | int32 => -2147483648
  | float | double => 0

/-- The greatest integer of an integer kind; the other kinds hold no range of integers. -/
def upper : Kind → Int
  | int8 => 127
  | int16 => 32767
  | int32 => 2147483647
  | float | double => 0

/-- The bounds of an integer kind as doubles. -/
theorem bounds_eq_ofInt (k : Kind) (hk : k.isInteger = true) :
    k.least = Binary.ofInt k.lower ∧ k.greatest = Binary.ofInt k.upper := by
  cases k with
  | int8 => exact ⟨rfl, rfl⟩
  | int16 => exact ⟨rfl, rfl⟩
  | int32 => exact ⟨rfl, rfl⟩
  | float => cases hk
  | double => cases hk

/-- The range of an integer kind has one more negative than positive integers, and at least one
positive one; all of them have at most 32 bits. -/
theorem range_of_isInteger (k : Kind) (hk : k.isInteger = true) :
    k.lower = -(k.upper + 1) ∧ 1 ≤ k.upper ∧ k.upper ≤ 2147483647 := by
  cases k with
  | int8 => decide
  | int16 => decide
  | int32 => decide
  | float => cases hk
  | double => cases hk

/-- The greater of two integer kinds is an integer kind with the range of either. -/
theorem max_range (a b : Kind) (ha : a.isInteger = true) (hb : b.isInteger = true) :
    (a.max b).isInteger = true ∧ a.upper ≤ (a.max b).upper ∧ b.upper ≤ (a.max b).upper := by
  revert ha hb
  cases a <;> cases b <;> decide

end Kind

namespace Operand

/-! ## Integers held by operands -/

/-- The integer that an operand of an integer kind holds. -/
def int? : Operand → Option Int
  | int8 n => some n.toInt
  | int16 n => some n.toInt
  | int32 n => some n.toInt
  | float _ | double _ => none

/-- An operand that holds an integer is of an integer kind, and the integer is in its range. -/
theorem range_of_int? (v : Operand) (n : Int) (h : v.int? = some n) :
    v.kind.isInteger = true ∧ v.kind.lower ≤ n ∧ n ≤ v.kind.upper := by
  cases v with
  | int8 m =>
    obtain rfl : m.toInt = n := by simpa [int?] using h
    exact ⟨rfl, m.le_toInt, Int.le_of_lt_add_one m.toInt_lt⟩
  | int16 m =>
    obtain rfl : m.toInt = n := by simpa [int?] using h
    exact ⟨rfl, m.le_toInt, Int.le_of_lt_add_one m.toInt_lt⟩
  | int32 m =>
    obtain rfl : m.toInt = n := by simpa [int?] using h
    exact ⟨rfl, m.le_toInt, Int.le_of_lt_add_one m.toInt_lt⟩
  | float x => cases h
  | double x => cases h

theorem wide_of_int? (v : Operand) (n : Int) (h : v.int? = some n) : v.wide = Binary.ofInt n := by
  cases v with
  | int8 m => cases h; rfl
  | int16 m => cases h; rfl
  | int32 m => cases h; rfl
  | float x => cases h
  | double x => cases h

/-- Within its range a kind narrows a double to its whole part. -/
theorem narrow_of_range (k : Kind) (hk : k.isInteger = true) (x : Double)
    (hlow : k.lower ≤ x.truncate) (hup : x.truncate ≤ k.upper) :
    (narrow k x).kind = k ∧ (narrow k x).int? = some x.truncate := by
  cases k with
  | int8 =>
    exact ⟨rfl, congrArg some (Int8.toInt_ofInt_of_le hlow (Int.lt_add_one_of_le hup))⟩
  | int16 =>
    exact ⟨rfl, congrArg some (Int16.toInt_ofInt_of_le hlow (Int.lt_add_one_of_le hup))⟩
  | int32 =>
    exact ⟨rfl, congrArg some (Int32.toInt_ofInt_of_le hlow (Int.lt_add_one_of_le hup))⟩
  | float => cases hk
  | double => cases hk

/-! ## The bounds check -/

/-- A bound of an integer kind keeps its value as a double. -/
theorem bound_natAbs_le (k : Kind) (hk : k.isInteger = true) :
    (k.upper + 1).natAbs ≤ Format.double.binade ∧ k.upper.natAbs ≤ Format.double.binade ∧
      k.lower.natAbs ≤ Format.double.binade ∧ (k.lower - 1).natAbs ≤ Format.double.binade := by
  obtain ⟨hlow, hpos, hup⟩ := k.range_of_isInteger hk
  have hb : 2147483649 ≤ Format.double.binade := by decide
  omega

/-- **The bounds check of an integer kind** compares the exact value with the range. -/
theorem boundsFault?_integer (k : Kind) (hk : k.isInteger = true) (x : Double)
    (hx : x.isNan = false) :
    boundsFault? k x =
      if k.upper * 2 ^ Format.double.scale < x.signedUnits then some (.overflow k)
      else if x.signedUnits < k.lower * 2 ^ Format.double.scale then some (.underflow k)
      else none := by
  obtain ⟨hleast, hgreatest⟩ := k.bounds_eq_ofInt hk
  obtain ⟨-, hup, hlow, -⟩ := bound_natAbs_le k hk
  have hfloat : k ≠ .float := by
    rintro rfl
    cases hk
  have hu := (Binary.ofInt_exact Format.double_regular k.upper (by omega)).2
  have hl := (Binary.ofInt_exact Format.double_regular k.lower (by omega)).2
  have hgt := Binary.less_iff (Binary.ofInt k.upper) x rfl hx
  have hlt := Binary.less_iff x (Binary.ofInt k.lower) hx rfl
  rw [hu] at hgt
  rw [hl] at hlt
  simp only [boundsFault?, if_neg hfloat, hx, Bool.false_or, hleast, hgreatest, hgt, hlt]

end Operand

end NumStack
