import NumStack.Operand
import NumStack.Proofs.IntegerKinds

/-!
# Arithmetic on integers

Arithmetic on integer kinds goes through doubles, yet it is exact: the result of an operation is the
integer that the operation on integers gives, or the fault that says on which side this integer
leaves the range of the result kind. Products may need more bits than a significand has, and
quotients are rounded before they are truncated; neither rounding crosses a bound or an integer.
-/

namespace NumStack

/-! ## Exact results -/

/-- The operation on integers: quotients are truncated toward zero, and a remainder has the sign of
the dividend. -/
def Operation.onInts : Operation → Int → Int → Int
  | add => fun m n => m + n
  | sub => fun m n => m - n
  | mul => fun m n => m * n
  | div => Int.tdiv
  | mod => Int.tmod

namespace Operand

/-- The outcome of kind `k` for the exact integer `r`: the operand that holds it, or the fault of
the side on which it leaves the range. -/
def IsExact (k : Kind) (r : Int) : Except OperandFault Operand → Prop
  | .ok v => v.kind = k ∧ v.int? = some r
  | .error (.overflow k' _) => k' = k ∧ k.upper < r
  | .error (.underflow k' _) => k' = k ∧ r < k.lower
  | .error (.invalidLiteral _ _) => False
  | .error .divisionByZero => False

/-- An exact outcome is of the side on which the integer lies. -/
theorem IsExact.outcome_iff (k : Kind) (r : Int) (result : Except OperandFault Operand)
    (hk : k.isInteger = true) (h : IsExact k r result) :
    ((∃ v, result = .ok v ∧ v.kind = k ∧ v.int? = some r) ↔ k.lower ≤ r ∧ r ≤ k.upper) ∧
      ((∃ text, result = .error (.overflow k text)) ↔ k.upper < r) ∧
      ((∃ text, result = .error (.underflow k text)) ↔ r < k.lower) := by
  obtain ⟨hlow, hpos, -⟩ := k.range_of_isInteger hk
  match result, h with
  | .ok v, ⟨hkind, hint⟩ =>
    obtain ⟨-, hge, hle⟩ := v.range_of_int? r hint
    rw [hkind] at hge hle
    refine ⟨⟨fun _ => ⟨hge, hle⟩, fun _ => ⟨v, rfl, hkind, hint⟩⟩, ⟨?_, ?_⟩, ⟨?_, ?_⟩⟩
    · rintro ⟨_, h⟩
      cases h
    · intro h
      omega
    · rintro ⟨_, h⟩
      cases h
    · intro h
      omega
  | .error (.overflow k' text), ⟨hkind, hgt⟩ =>
    subst hkind
    refine ⟨⟨?_, ?_⟩, ⟨fun _ => hgt, fun _ => ⟨text, rfl⟩⟩, ⟨?_, ?_⟩⟩
    · rintro ⟨_, h, _⟩
      cases h
    · intro h
      omega
    · rintro ⟨_, h⟩
      cases h
    · intro h
      omega
  | .error (.underflow k' text), ⟨hkind, hlt⟩ =>
    subst hkind
    refine ⟨⟨?_, ?_⟩, ⟨?_, ?_⟩, ⟨fun _ => hlt, fun _ => ⟨text, rfl⟩⟩⟩
    · rintro ⟨_, h, _⟩
      cases h
    · intro h
      omega
    · rintro ⟨_, h⟩
      cases h
    · intro h
      omega

/-! ## Narrowing a rounded result -/

section

variable (k : Kind) (hk : k.isInteger = true) (x : Double)

include hk

/-- A double in the range of an integer kind narrows to its whole part. -/
theorem ofWide_isExact_of_range (hx : x.isNan = false)
    (hlow : k.lower * 2 ^ Format.double.scale ≤ x.signedUnits)
    (hup : x.signedUnits ≤ k.upper * 2 ^ Format.double.scale) :
    IsExact k x.truncate (ofWide k x) := by
  have hpow : (0 : Int) < 2 ^ Format.double.scale := by positivity
  rw [ofWide, boundsFault?_integer k hk x hx, if_neg (not_lt.2 hup), if_neg (not_lt.2 hlow)]
  apply narrow_of_range k hk x
  · have := Int.tdiv_le_tdiv hpow hlow
    rwa [Int.mul_tdiv_cancel _ hpow.ne'] at this
  · have := Int.tdiv_le_tdiv hpow hup
    rwa [Int.mul_tdiv_cancel _ hpow.ne'] at this

/-- **A rounded integer is checked exactly.** -/
theorem ofWide_isExact_of_whole (r : Int)
    (hx : x.IsRounded (r * 2 ^ Format.double.scale) 1) : IsExact k r (ofWide k x) := by
  have hpow : (0 : Int) < 2 ^ Format.double.scale := by positivity
  have hreg := Format.double_regular
  obtain ⟨hlow, hpos, -⟩ := k.range_of_isInteger hk
  obtain ⟨hb1, hb2, hb3, hb4⟩ := bound_natAbs_le k hk
  have hnan := hx.isNan_eq_false
  have hle : ∀ n : Int, n.natAbs ≤ Format.double.binade → r ≤ n →
      x.signedUnits ≤ n * 2 ^ Format.double.scale := by
    intro n hn hrn
    apply hx.signedUnits_le_whole hreg Nat.one_pos n (by omega)
    simpa using mul_le_mul_of_nonneg_right hrn hpow.le
  have hge : ∀ n : Int, n.natAbs ≤ Format.double.binade → n ≤ r →
      n * 2 ^ Format.double.scale ≤ x.signedUnits := by
    intro n hn hnr
    apply hx.whole_le_signedUnits hreg Nat.one_pos n (by omega)
    simpa using mul_le_mul_of_nonneg_right hnr hpow.le
  rcases lt_or_ge k.upper r with hgt | hup
  · -- one above the range is still exact, so the rounded result is not below it
    have hover := hge (k.upper + 1) hb1 (by omega)
    have hlt : k.upper * 2 ^ Format.double.scale < x.signedUnits := by linarith
    rw [ofWide, boundsFault?_integer k hk x hnan, if_pos hlt]
    exact ⟨rfl, hgt⟩
  · rcases lt_or_ge r k.lower with hlt | hlo
    · have hunder := hle (k.lower - 1) hb4 (by omega)
      have hlt' : x.signedUnits < k.lower * 2 ^ Format.double.scale := by linarith
      have hnot : ¬ k.upper * 2 ^ Format.double.scale < x.signedUnits := by
        have := mul_le_mul_of_nonneg_right (by omega : k.lower ≤ k.upper) hpow.le
        linarith
      rw [ofWide, boundsFault?_integer k hk x hnan, if_neg hnot, if_pos hlt']
      exact ⟨rfl, hlt⟩
    · have htrunc : x.truncate = r := by
        rw [hx.truncate_eq_tdiv hreg r 1 Nat.one_pos (by omega)]
        simp
      have := ofWide_isExact_of_range k hk x hnan (hge _ hb3 hlo) (hle _ hb2 hup)
      rwa [htrunc] at this

/-- **A rounded quotient is checked exactly.** The dividend may be one above the range, which is
where the least integer is divided by minus one. -/
theorem ofWide_isExact_of_quotient (m : Int) (d : Nat) (hd : 0 < d)
    (hm : m.natAbs ≤ (k.upper + 1).natAbs)
    (hx : x.IsRounded (m * 2 ^ Format.double.scale) d) : IsExact k (m.tdiv d) (ofWide k x) := by
  obtain ⟨hlow, hpos, -⟩ := k.range_of_isInteger hk
  obtain ⟨hb1, hb2, hb3, -⟩ := bound_natAbs_le k hk
  have hreg := Format.double_regular
  rcases Nat.lt_or_ge d 2 with hd1 | hd2
  · obtain rfl : d = 1 := by omega
    simpa using ofWide_isExact_of_whole k hk x m hx
  · -- half of such a dividend is well within the range
    have hpow : (0 : Int) < 2 ^ Format.double.scale := by positivity
    have htwo : k.upper * 2 ≤ k.upper * d :=
      mul_le_mul_of_nonneg_left (by exact_mod_cast hd2) (by omega)
    have hup : m ≤ k.upper * d := by omega
    have hlo : k.lower * d ≤ m := by
      rw [hlow, neg_mul, add_mul]
      omega
    rw [← hx.truncate_eq_tdiv hreg m d hd (by omega)]
    apply ofWide_isExact_of_range k hk x hx.isNan_eq_false
    · apply hx.whole_le_signedUnits hreg hd k.lower (by omega)
      rw [mul_right_comm]
      exact mul_le_mul_of_nonneg_right hlo hpow.le
    · apply hx.signedUnits_le_whole hreg hd k.upper (by omega)
      rw [mul_right_comm]
      exact mul_le_mul_of_nonneg_right hup hpow.le

end

end Operand

namespace Operation

/-! ## Operations on integers through doubles -/

/-- A quotient with the sign of the divisor moved to the dividend. -/
theorem tdiv_natAbs_eq (m n : Int) : (m * n.sign).tdiv n.natAbs = m.tdiv n := by
  rcases lt_trichotomy n 0 with hneg | rfl | hpos
  · rw [Int.sign_eq_neg_one_of_neg hneg, Int.ofNat_natAbs_of_nonpos hneg.le, mul_neg_one,
      Int.neg_tdiv_neg]
  · simp
  · rw [Int.sign_eq_one_of_pos hpos, Int.natAbs_of_nonneg hpos.le, mul_one]

/-- **The operation on doubles is exact on integers**, up to the one rounding that the bounds check
does not see. -/
theorem ofWide_onDoubles_isExact (op : Operation) (k : Kind) (hk : k.isInteger = true) (m n : Int)
    (hm : m.natAbs ≤ (k.upper + 1).natAbs) (hn : n.natAbs ≤ (k.upper + 1).natAbs)
    (hdiv : op.divides = true → n ≠ 0) :
    Operand.IsExact k (op.onInts m n)
      (Operand.ofWide k (op.onDoubles (Binary.ofInt m) (Binary.ofInt n))) := by
  have hreg := Format.double_regular
  have hbound := (Operand.bound_natAbs_le k hk).1
  obtain ⟨hfm, hum⟩ := Binary.ofInt_exact hreg m (by omega)
  obtain ⟨hfn, hun⟩ := Binary.ofInt_exact hreg n (by omega)
  have hzero := Binary.isZero_ofInt hreg n (by omega)
  have hnat := Nat.two_pow_pos Format.double.scale
  have hpow : (0 : Int) < 2 ^ Format.double.scale := by positivity
  cases op with
  | add =>
    have hx := Binary.add_isRounded _ _ hfm hfn
    rw [hum, hun, ← add_mul] at hx
    exact Operand.ofWide_isExact_of_whole k hk _ (m + n) hx
  | sub =>
    have hx := Binary.sub_isRounded _ _ hfm hfn
    rw [hum, hun, ← sub_mul] at hx
    exact Operand.ofWide_isExact_of_whole k hk _ (m - n) hx
  | mul =>
    -- the product may have more bits than a significand and be rounded, but not across a bound
    have hx := Binary.mul_isRounded _ _ hfm hfn
    rw [hum, hun] at hx
    refine Operand.ofWide_isExact_of_whole k hk _ (m * n) (hx.congr hreg hnat Nat.one_pos ?_)
    push_cast
    ring
  | div =>
    -- the scale cancels, and the sign of the divisor moves to the dividend
    have hn0 : n ≠ 0 := hdiv rfl
    have hx := Binary.div_isRounded _ _ hfm hfn (by simpa [hn0] using hzero)
    rw [hum, hun, Int.sign_mul, Int.sign_eq_one_of_pos hpow, mul_one] at hx
    have hden : 0 < (n * 2 ^ Format.double.scale).natAbs := by
      rw [Int.natAbs_pos]
      exact mul_ne_zero hn0 hpow.ne'
    have hx' : (Binary.div (Binary.ofInt m) (Binary.ofInt n) : Double).IsRounded
        (m * n.sign * 2 ^ Format.double.scale) n.natAbs := by
      apply hx.congr hreg hden (Int.natAbs_pos.2 hn0)
      rw [Int.natAbs_mul, Int.natAbs_pow]
      push_cast
      ring
    have hexact := Operand.ofWide_isExact_of_quotient k hk _ (m * n.sign) n.natAbs
      (Int.natAbs_pos.2 hn0) (by rw [Int.natAbs_mul, Int.natAbs_sign_of_ne_zero hn0]; omega) hx'
    rwa [tdiv_natAbs_eq] at hexact
  | mod =>
    have hn0 : n ≠ 0 := hdiv rfl
    have hx := Binary.rem_isRounded _ _ hfm hfn (by simpa [hn0] using hzero)
    rw [hum, hun, mul_comm m, mul_comm n, Int.mul_tmod_mul_of_pos _ _ hpow, mul_comm] at hx
    exact Operand.ofWide_isExact_of_whole k hk _ (m.tmod n) hx

/-- **Arithmetic on integer kinds is exact.** Division by zero is refused and nothing else is
refused as such; otherwise the outcome is the exact integer if the result kind holds it, and else
the fault of the side on which it leaves the range. -/
theorem apply_integers (op : Operation) (a b : Operand) (m n : Int) (ha : a.int? = some m)
    (hb : b.int? = some n) :
    (op.apply a b = .error .divisionByZero ↔ op.divides = true ∧ n = 0) ∧
      (¬ (op.divides = true ∧ n = 0) →
        ((∃ v, op.apply a b = .ok v ∧ v.kind = a.kind.max b.kind ∧
            v.int? = some (op.onInts m n)) ↔
          (a.kind.max b.kind).lower ≤ op.onInts m n ∧
            op.onInts m n ≤ (a.kind.max b.kind).upper) ∧
        ((∃ text, op.apply a b = .error (.overflow (a.kind.max b.kind) text)) ↔
          (a.kind.max b.kind).upper < op.onInts m n) ∧
        ((∃ text, op.apply a b = .error (.underflow (a.kind.max b.kind) text)) ↔
          op.onInts m n < (a.kind.max b.kind).lower)) := by
  obtain ⟨hka, hlowa, hupa⟩ := a.range_of_int? m ha
  obtain ⟨hkb, hlowb, hupb⟩ := b.range_of_int? n hb
  obtain ⟨hra, -, -⟩ := a.kind.range_of_isInteger hka
  obtain ⟨hrb, -, -⟩ := b.kind.range_of_isInteger hkb
  obtain ⟨hk, hmaxa, hmaxb⟩ := Kind.max_range a.kind b.kind hka hkb
  have hbound := (Operand.bound_natAbs_le b.kind hkb).1
  have hzero : b.isZero = true ↔ n = 0 := by
    rw [Operand.isZero, b.wide_of_int? n hb]
    exact Binary.isZero_ofInt Format.double_regular n (by omega)
  by_cases hdiv : op.divides = true ∧ n = 0
  · have happly : op.apply a b = .error .divisionByZero := by
      rw [apply, if_pos (by simp [hdiv.1, hzero.2 hdiv.2])]
    exact ⟨⟨fun _ => hdiv, fun _ => happly⟩, fun h => absurd hdiv h⟩
  · have happly : op.apply a b = Operand.ofWide (a.kind.max b.kind)
        (op.onDoubles (Binary.ofInt m) (Binary.ofInt n)) := by
      rw [apply, if_neg (by simpa [hzero] using hdiv), a.wide_of_int? m ha, b.wide_of_int? n hb]
    have hexact := ofWide_onDoubles_isExact op (a.kind.max b.kind) hk m n (by omega) (by omega)
      (fun h h0 => hdiv ⟨h, h0⟩)
    rw [← happly] at hexact
    refine ⟨⟨fun h => ?_, fun h => absurd h hdiv⟩, fun _ => hexact.outcome_iff _ _ _ hk⟩
    rw [h] at hexact
    exact hexact.elim

/-- The least 32-bit integer by minus one: the quotient leaves the range at the top, while the
remainder, a negative zero on the way, is zero. -/
theorem apply_integers_least_by_neg_one :
    (Operand.int32 (-2147483648)).int? = some (-2147483648) ∧
      (Operand.int8 (-1)).int? = some (-1) ∧
      (∃ text, div.apply (.int32 (-2147483648)) (.int8 (-1)) = .error (.overflow .int32 text)) ∧
      ∃ v, mod.apply (.int32 (-2147483648)) (.int8 (-1)) = .ok v ∧ v.kind = .int32 ∧
        v.int? = some 0 := by
  have hleast : (Operand.int32 (-2147483648)).int? = some (-2147483648) := by decide
  have hneg : (Operand.int8 (-1)).int? = some (-1) := by decide
  refine ⟨hleast, hneg, ?_, ?_⟩
  · exact ((apply_integers div _ _ _ _ hleast hneg).2 (by decide)).2.1.2 (by decide)
  · exact ((apply_integers mod _ _ _ _ hleast hneg).2 (by decide)).1.2 (by decide)

end Operation

end NumStack
