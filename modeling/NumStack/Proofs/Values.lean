import NumStack.Binary.Bits
import NumStack.Proofs.Rounding

/-!
# Values of binary numbers

The order of numbers is the order of their signed units, infinities included. A number is a rounding
of an exact value if it is the value rounded once; roundings keep the order of the exact values. On
whole numbers that fit a significand, each operation is the operation on integers, rounded once.
-/

namespace NumStack

namespace Binary

variable {f : Format}

/-! ## Order by units -/

theorem signedUnits_number (s : Bool) (c : Nat) (h : c ≤ f.infinity) :
    (number s c h).signedUnits = if s then -(f.units c : Int) else f.units c := rfl

/-- **Comparison is comparison of values.** -/
theorem less_iff (x y : Binary f) (hx : x.isNan = false) (hy : y.isNan = false) :
    x.less y = true ↔ x.signedUnits < y.signedUnits := by
  have hmono := f.units_strictMono
  cases x with
  | nan => simp [isNan] at hx
  | number s a ha =>
    cases y with
    | nan => simp [isNan] at hy
    | number t b hb =>
      have hab : f.units a < f.units b ↔ a < b := hmono.lt_iff_lt
      have hba : f.units b < f.units a ↔ b < a := hmono.lt_iff_lt
      have ha0 : f.units 0 < f.units a ↔ 0 < a := hmono.lt_iff_lt
      have hb0 : f.units 0 < f.units b ↔ 0 < b := hmono.lt_iff_lt
      rw [f.units_zero] at ha0 hb0
      simp only [less, key, signedUnits_number, decide_eq_true_eq]
      cases s <;> cases t <;> simp only [if_true, if_false, Bool.false_eq_true] <;> omega

/-! ## Roundings of exact values -/

/-- The number is `num / den` units rounded once. The sign of an exact zero is left open. -/
def IsRounded (x : Binary f) (num : Int) (den : Nat) : Prop :=
  ∃ s, x = ofRatio s num.natAbs den ∧ (num ≠ 0 → s = decide (num < 0))

namespace IsRounded

variable {x y : Binary f} {num num' : Int} {den den' : Nat}

theorem isNan_eq_false (hx : x.IsRounded num den) : x.isNan = false := by
  obtain ⟨s, rfl, _⟩ := hx
  rfl

/-- The units of a rounding of a value that is not negative. -/
theorem signedUnits_of_nonneg (hx : x.IsRounded num den) (h : 0 ≤ num) :
    x.signedUnits = f.units (f.nearest num.natAbs den) := by
  obtain ⟨s, rfl, hs⟩ := hx
  rw [ofRatio, signedUnits_number]
  rcases Int.lt_or_eq_of_le h with hpos | rfl
  · rw [hs (by omega)]
    simp [Int.not_lt.2 h]
  · rw [Int.natAbs_zero, f.nearest_zero, f.units_zero]
    simp

/-- The units of a rounding of a value that is not positive. -/
theorem signedUnits_of_nonpos (hx : x.IsRounded num den) (h : num ≤ 0) :
    x.signedUnits = -(f.units (f.nearest num.natAbs den) : Int) := by
  obtain ⟨s, rfl, hs⟩ := hx
  rw [ofRatio, signedUnits_number]
  rcases Int.lt_or_eq_of_le h with hneg | rfl
  · rw [hs (by omega)]
    simp [hneg]
  · rw [Int.natAbs_zero, f.nearest_zero, f.units_zero]
    simp

/-- **Roundings keep the order of the exact values.** -/
theorem signedUnits_mono (hf : f.Regular) (hx : x.IsRounded num den) (hy : y.IsRounded num' den')
    (hden : 0 < den) (hden' : 0 < den') (hle : num * den' ≤ num' * den) :
    x.signedUnits ≤ y.signedUnits := by
  have hmono := f.units_strictMono.monotone
  rcases lt_or_ge num 0 with hneg | hnonneg
  · rw [hx.signedUnits_of_nonpos hneg.le]
    rcases lt_or_ge num' 0 with hneg' | hnonneg'
    · rw [hy.signedUnits_of_nonpos hneg'.le]
      have habs : num'.natAbs * den ≤ num.natAbs * den' := by
        zify
        rw [abs_of_neg hneg, abs_of_neg hneg']
        linarith
      have := hmono (f.nearest_mono hf _ _ _ _ hden' hden habs)
      omega
    · rw [hy.signedUnits_of_nonneg hnonneg']
      omega
  · have hnonneg' : 0 ≤ num' := by
      by_contra hneg'
      have h1 : num' * (den : Int) < 0 := mul_neg_of_neg_of_pos (by omega) (by exact_mod_cast hden)
      have h2 : 0 ≤ num * (den' : Int) := mul_nonneg hnonneg (by omega)
      omega
    rw [hx.signedUnits_of_nonneg hnonneg, hy.signedUnits_of_nonneg hnonneg']
    have habs : num.natAbs * den' ≤ num'.natAbs * den := by
      zify
      rwa [abs_of_nonneg hnonneg, abs_of_nonneg hnonneg']
    exact_mod_cast hmono (f.nearest_mono hf _ _ _ _ hden hden' habs)

/-- A rounding depends on the value of the quotient only. -/
theorem congr (hf : f.Regular) (hx : x.IsRounded num den) (hden : 0 < den) (hden' : 0 < den')
    (heq : num * den' = num' * den) : x.IsRounded num' den' := by
  obtain ⟨s, rfl, hs⟩ := hx
  have hpos : (0 : Int) < den := by exact_mod_cast hden
  have hpos' : (0 : Int) < den' := by exact_mod_cast hden'
  have habs : num.natAbs * den' = num'.natAbs * den := by
    have := congrArg Int.natAbs heq
    rwa [Int.natAbs_mul, Int.natAbs_mul, Int.natAbs_natCast, Int.natAbs_natCast] at this
  refine ⟨s, ?_, ?_⟩
  · simp only [ofRatio, number.injEq, true_and]
    exact f.nearest_congr hf _ _ _ _ hden hden' habs
  · intro hne
    have hsign : num < 0 ↔ num' < 0 := by
      constructor
      · intro h
        have := mul_neg_of_neg_of_pos h hpos'
        exact neg_of_mul_neg_left (by omega : num' * (den : Int) < 0) hpos.le
      · intro h
        have := mul_neg_of_neg_of_pos h hpos
        exact neg_of_mul_neg_left (by omega : num * (den' : Int) < 0) hpos'.le
    have hne' : num ≠ 0 := by
      rintro rfl
      rw [Int.zero_mul] at heq
      exact hne ((mul_eq_zero.1 heq.symm).resolve_right hpos.ne')
    rw [hs hne', decide_eq_decide]
    exact hsign

end IsRounded

/-! ## Operations round once -/

theorem zero_isRounded (s : Bool) (den : Nat) : (zero s : Binary f).IsRounded 0 den := by
  refine ⟨s, ?_, fun h => absurd rfl h⟩
  simp [ofRatio, zero, f.nearest_zero]

theorem ofRatio_isRounded (s : Bool) (num : Int) (n den : Nat) (hn : n = num.natAbs)
    (hs : num ≠ 0 → s = decide (num < 0)) : (ofRatio s n den : Binary f).IsRounded num den :=
  ⟨s, by rw [hn], hs⟩

theorem exists_number_of_isFinite (x : Binary f) (hx : x.isFinite = true) :
    ∃ s c h, x = number s c h ∧ c < f.infinity := by
  cases x with
  | nan => simp [isFinite] at hx
  | number s c h => exact ⟨s, c, h, rfl, by simpa [isFinite] using hx⟩

theorem units_eq_zero_iff (c : Nat) : f.units c = 0 ↔ c = 0 := by
  constructor
  · intro h
    exact f.units_strictMono.injective (h.trans f.units_zero.symm)
  · rintro rfl
    exact f.units_zero

theorem signedUnits_eq_zero_iff (s : Bool) (c : Nat) (h : c ≤ f.infinity) :
    (number s c h).signedUnits = 0 ↔ c = 0 := by
  rw [signedUnits_number, ← units_eq_zero_iff (f := f) c]
  cases s <;> simp

theorem natAbs_signedUnits (s : Bool) (c : Nat) (h : c ≤ f.infinity) :
    (number s c h).signedUnits.natAbs = f.units c := by
  rw [signedUnits_number]
  cases s <;> simp

theorem sign_eq_decide (s : Bool) (c : Nat) (h : c ≤ f.infinity) (hc : c ≠ 0) :
    s = decide ((number s c h).signedUnits < 0) := by
  have hne := (units_eq_zero_iff (f := f) c).not.2 hc
  rw [signedUnits_number]
  cases s
  · simp
  · rw [if_pos rfl, eq_comm, decide_eq_true_eq]
    omega

/-- A product is negative if its factors have different signs. -/
theorem xor_eq_decide_mul_neg (u v : Int) (hu : u ≠ 0) (hv : v ≠ 0) :
    (decide (u < 0) ^^ decide (v < 0)) = decide (u * v < 0) := by
  rcases lt_or_gt_of_ne hu with hu | hu <;> rcases lt_or_gt_of_ne hv with hv | hv
  · rw [decide_eq_true hu, decide_eq_true hv,
      decide_eq_false (not_lt.2 (mul_pos_of_neg_of_neg hu hv).le)]
    rfl
  · rw [decide_eq_true hu, decide_eq_false (not_lt.2 hv.le),
      decide_eq_true (mul_neg_of_neg_of_pos hu hv)]
    rfl
  · rw [decide_eq_false (not_lt.2 hu.le), decide_eq_true hv,
      decide_eq_true (mul_neg_of_pos_of_neg hu hv)]
    rfl
  · rw [decide_eq_false (not_lt.2 hu.le), decide_eq_false (not_lt.2 hv.le),
      decide_eq_false (not_lt.2 (mul_pos hu hv).le)]
    rfl

theorem signedUnits_neg (x : Binary f) : x.neg.signedUnits = -x.signedUnits := by
  cases x with
  | nan => rfl
  | number s c h =>
    rw [neg, signedUnits_number, signedUnits_number]
    cases s <;> simp

theorem isFinite_neg (x : Binary f) : x.neg.isFinite = x.isFinite := by
  cases x <;> rfl

/-- **A sum is rounded once.** -/
theorem add_isRounded (x y : Binary f) (hx : x.isFinite = true) (hy : y.isFinite = true) :
    (x.add y).IsRounded (x.signedUnits + y.signedUnits) 1 := by
  obtain ⟨s, a, ha, rfl, hlta⟩ := exists_number_of_isFinite x hx
  obtain ⟨t, b, hb, rfl, hltb⟩ := exists_number_of_isFinite y hy
  simp only [add, if_neg hlta.ne, if_neg hltb.ne]
  split
  · rename_i hsum
    rw [hsum]
    exact zero_isRounded _ 1
  · exact ofRatio_isRounded _ _ _ _ rfl fun _ => rfl

/-- **A difference is rounded once.** -/
theorem sub_isRounded (x y : Binary f) (hx : x.isFinite = true) (hy : y.isFinite = true) :
    (x.sub y).IsRounded (x.signedUnits - y.signedUnits) 1 := by
  rw [sub, Int.sub_eq_add_neg, ← signedUnits_neg]
  exact add_isRounded x y.neg hx (by rw [isFinite_neg, hy])

/-- **A product is rounded once.** -/
theorem mul_isRounded (x y : Binary f) (hx : x.isFinite = true) (hy : y.isFinite = true) :
    (x.mul y).IsRounded (x.signedUnits * y.signedUnits) (2 ^ f.scale) := by
  obtain ⟨s, a, ha, rfl, hlta⟩ := exists_number_of_isFinite x hx
  obtain ⟨t, b, hb, rfl, hltb⟩ := exists_number_of_isFinite y hy
  simp only [mul, hlta.ne, hltb.ne, or_self, if_false]
  apply ofRatio_isRounded
  · rw [Int.natAbs_mul, natAbs_signedUnits, natAbs_signedUnits]
  · intro hne
    obtain ⟨hu, hv⟩ := mul_ne_zero_iff.1 hne
    rw [← xor_eq_decide_mul_neg _ _ hu hv,
      ← sign_eq_decide s a ha ((signedUnits_eq_zero_iff s a ha).not.1 hu),
      ← sign_eq_decide t b hb ((signedUnits_eq_zero_iff t b hb).not.1 hv)]

/-- **A quotient is rounded once.** The sign of the divisor is moved to the dividend. -/
theorem div_isRounded (x y : Binary f) (hx : x.isFinite = true) (hy : y.isFinite = true)
    (hzero : y.isZero = false) :
    (x.div y).IsRounded (x.signedUnits * y.signedUnits.sign * 2 ^ f.scale)
      y.signedUnits.natAbs := by
  obtain ⟨s, a, ha, rfl, hlta⟩ := exists_number_of_isFinite x hx
  obtain ⟨t, b, hb, rfl, hltb⟩ := exists_number_of_isFinite y hy
  have hb0 : b ≠ 0 := by simpa [isZero] using hzero
  have hv := (signedUnits_eq_zero_iff t b hb).not.2 hb0
  simp only [div, hlta.ne, hltb.ne, hb0, if_false]
  rw [natAbs_signedUnits]
  apply ofRatio_isRounded
  · rw [Int.natAbs_mul, Int.natAbs_mul, natAbs_signedUnits, Int.natAbs_sign_of_ne_zero hv,
      Int.natAbs_pow, mul_one]
    rfl
  · intro hne
    have hu : (number s a ha).signedUnits ≠ 0 := by
      intro h
      simp [h] at hne
    have hpow : (0 : Int) < 2 ^ f.scale := by positivity
    have hsign : (number s a ha).signedUnits * (number t b hb).signedUnits.sign * 2 ^ f.scale < 0 ↔
        (number s a ha).signedUnits * (number t b hb).signedUnits < 0 := by
      rw [← Int.sign_eq_neg_one_iff_neg, ← Int.sign_eq_neg_one_iff_neg, Int.sign_mul, Int.sign_mul,
        Int.sign_mul, Int.sign_sign, Int.sign_eq_one_of_pos hpow, mul_one]
    rw [decide_eq_decide.2 hsign, ← xor_eq_decide_mul_neg _ _ hu hv,
      ← sign_eq_decide s a ha ((signedUnits_eq_zero_iff s a ha).not.1 hu),
      ← sign_eq_decide t b hb hb0]

/-- **A remainder is rounded once**, and it is the remainder of truncated division. -/
theorem rem_isRounded (x y : Binary f) (hx : x.isFinite = true) (hy : y.isFinite = true)
    (hzero : y.isZero = false) :
    (x.rem y).IsRounded (x.signedUnits.tmod y.signedUnits) 1 := by
  obtain ⟨s, a, ha, rfl, hlta⟩ := exists_number_of_isFinite x hx
  obtain ⟨t, b, hb, rfl, hltb⟩ := exists_number_of_isFinite y hy
  have hb0 : b ≠ 0 := by simpa [isZero] using hzero
  simp only [rem, hlta.ne, hltb.ne, hb0, or_self, if_false]
  apply ofRatio_isRounded
  · rw [Int.natAbs_tmod, natAbs_signedUnits, natAbs_signedUnits]
  · intro hne
    set u := (number s a ha).signedUnits with hu
    have hu0 : u ≠ 0 := by
      intro h
      simp [h] at hne
    rw [sign_eq_decide s a ha ((signedUnits_eq_zero_iff s a ha).not.1 hu0), ← hu, decide_eq_decide]
    constructor
    · intro h
      have := Int.tmod_nonneg (a := -u) (number t b hb).signedUnits (by omega)
      rw [Int.neg_tmod] at this
      omega
    · intro h
      by_contra hnot
      have := Int.tmod_nonneg (number t b hb).signedUnits (not_lt.1 hnot)
      omega

/-! ## Whole numbers -/

theorem ofInt_eq (n : Int) :
    (ofInt n : Binary f) = number (n < 0) (f.nearest (n.natAbs * 2 ^ f.scale) 1)
      (f.nearest_le_infinity _ _) := rfl

theorem truncate_eq (x : Binary f) : x.truncate = x.signedUnits.tdiv (2 ^ f.scale) := by
  show x.signedUnits.tdiv (Int.pow 2 f.scale) = _
  rw [Int.pow_eq]

/-- An integer is rounded once. -/
theorem ofInt_isRounded (n : Int) : (ofInt n : Binary f).IsRounded (n * 2 ^ f.scale) 1 := by
  have hpow : (0 : Int) < 2 ^ f.scale := by positivity
  apply ofRatio_isRounded
  · rw [Int.natAbs_mul, Int.natAbs_pow]
    rfl
  · intro _
    rw [decide_eq_decide]
    constructor
    · intro h
      exact mul_neg_of_neg_of_pos h hpow
    · intro h
      exact neg_of_mul_neg_left h hpow.le

/-- An integer that fits a significand is finite and keeps its value. -/
theorem ofInt_exact (hf : f.Regular) (n : Int) (hn : n.natAbs ≤ 2 * f.binade) :
    (ofInt n : Binary f).isFinite = true ∧ (ofInt n : Binary f).signedUnits = n * 2 ^ f.scale := by
  obtain ⟨hlt, hunits⟩ := f.units_nearest_whole hf n.natAbs hn
  rw [ofInt_eq]
  refine ⟨decide_eq_true hlt, ?_⟩
  rw [signedUnits_number, hunits]
  rcases lt_or_ge n 0 with hneg | hnonneg
  · rw [if_pos (decide_eq_true hneg)]
    push_cast
    rw [abs_of_neg hneg]
    ring
  · rw [if_neg (by simpa using hnonneg)]
    push_cast
    rw [abs_of_nonneg hnonneg]

/-- A rounding of at most a whole number is at most that number. -/
theorem IsRounded.signedUnits_le_whole (hf : f.Regular) {x : Binary f} {num : Int} {den : Nat}
    (hx : x.IsRounded num den) (hden : 0 < den) (n : Int) (hn : n.natAbs ≤ 2 * f.binade)
    (hle : num ≤ n * 2 ^ f.scale * den) : x.signedUnits ≤ n * 2 ^ f.scale := by
  rw [← (ofInt_exact hf n hn).2]
  exact hx.signedUnits_mono hf (ofInt_isRounded n) hden Nat.one_pos (by simpa using hle)

/-- A rounding of at least a whole number is at least that number. -/
theorem IsRounded.whole_le_signedUnits (hf : f.Regular) {x : Binary f} {num : Int} {den : Nat}
    (hx : x.IsRounded num den) (hden : 0 < den) (n : Int) (hn : n.natAbs ≤ 2 * f.binade)
    (hle : n * 2 ^ f.scale * den ≤ num) : n * 2 ^ f.scale ≤ x.signedUnits := by
  rw [← (ofInt_exact hf n hn).2]
  exact (ofInt_isRounded n).signedUnits_mono hf hx Nat.one_pos hden (by simpa using hle)

/-- **Truncation undoes the rounding of a quotient of integers.** -/
theorem IsRounded.truncate_eq_tdiv (hf : f.Regular) {x : Binary f} (m : Int) (d : Nat)
    (hx : x.IsRounded (m * 2 ^ f.scale) d) (hd : 0 < d) (hm : m.natAbs ≤ f.binade) :
    x.truncate = m.tdiv d := by
  have hpow : (0 : Int) < 2 ^ f.scale := by positivity
  have habs : (m * 2 ^ f.scale).natAbs = m.natAbs * 2 ^ f.scale := by
    rw [Int.natAbs_mul, Int.natAbs_pow]
    rfl
  have hdiv := f.units_nearest_div_scale hf m.natAbs d hd hm
  have hcast : (f.units (f.nearest (m.natAbs * 2 ^ f.scale) d) : Int).tdiv (2 ^ f.scale) =
      (m.natAbs : Int).tdiv d := by
    have := congrArg (Nat.cast : Nat → Int) hdiv
    rw [Int.natCast_div, Int.natCast_div] at this
    rw [Int.tdiv_eq_ediv_of_nonneg (by omega), Int.tdiv_eq_ediv_of_nonneg (by omega)]
    simpa using this
  rw [truncate_eq]
  rcases lt_or_ge m 0 with hneg | hnonneg
  · rw [hx.signedUnits_of_nonpos (mul_nonpos_of_nonpos_of_nonneg hneg.le hpow.le), habs,
      Int.neg_tdiv, hcast, ← Int.neg_tdiv]
    congr 1
    omega
  · rw [hx.signedUnits_of_nonneg (mul_nonneg hnonneg hpow.le), habs, hcast]
    congr 1
    omega

/-- An integer that fits a significand is a zero number only if it is zero. -/
theorem isZero_ofInt (hf : f.Regular) (n : Int) (hn : n.natAbs ≤ 2 * f.binade) :
    (ofInt n : Binary f).isZero = true ↔ n = 0 := by
  have hexact := (ofInt_exact hf n hn).2
  have hpow : (2 : Int) ^ f.scale ≠ 0 := by positivity
  have hcode := signedUnits_eq_zero_iff (f := f) (n < 0) _
    (f.nearest_le_infinity (n.natAbs * 2 ^ f.scale) 1)
  rw [ofInt_eq] at hexact ⊢
  rw [hexact, mul_eq_zero_iff_right hpow] at hcode
  rw [hcode]
  exact beq_iff_eq

end Binary

end NumStack
