import NumStack.Proofs.ExactValues

/-!
# Rounding to a double and then to a single

A value that is rounded to a double and then to a single comes out as if it had been rounded to a
single at once, unless the double lies on a midpoint of two singles where the value does not. A
double that does so would be near to the value, and both the value and the midpoint would have a
significand that is too short for that, if the value is a sum, a product or a quotient of two
singles: numbers with short significands are equal or far apart.
-/

namespace NumStack

/-! ## Near numbers -/

/-- Two natural numbers differ by at most the fraction `1 / b` of either. -/
def Near (b x y : Nat) : Prop := b * (x - y) ≤ y ∧ b * (y - x) ≤ x

namespace Near

variable {b x y z : Nat}

theorem symm (h : Near b x y) : Near b y x := ⟨h.2, h.1⟩

theorem mul_right_iff (hz : 0 < z) : Near b (x * z) (y * z) ↔ Near b x y := by
  unfold Near
  rw [← Nat.sub_mul, ← Nat.sub_mul, ← Nat.mul_assoc, ← Nat.mul_assoc, Nat.mul_le_mul_right_iff hz,
    Nat.mul_le_mul_right_iff hz]

theorem mono {b' : Nat} (h : Near b x y) (hb : b' ≤ b) : Near b' x y :=
  ⟨(Nat.mul_le_mul_right _ hb).trans h.1, (Nat.mul_le_mul_right _ hb).trans h.2⟩

/-- What is near to a number is near to every number that differs little from it. -/
theorem of_close {d : Nat} (h : Near (4 * b) x y) (hd : 4 * b * d ≤ x) (hxz : x ≤ z + d)
    (hzx : z ≤ x + d) : Near b z y := by
  rcases Nat.eq_zero_or_pos b with rfl | hb
  · simp [Near]
  obtain ⟨habove, hbelow⟩ := h
  rw [mul_assoc] at habove hbelow hd
  have hup : b * (z - y) ≤ b * (x - y) + b * d := by
    rw [← mul_add]
    exact Nat.mul_le_mul_left b (by omega)
  have hdown : b * (y - z) ≤ b * (y - x) + b * d := by
    rw [← mul_add]
    exact Nat.mul_le_mul_left b (by omega)
  have hclose := Nat.le_mul_of_pos_left (x - y) hb
  have hclose' := Nat.le_mul_of_pos_left d hb
  exact ⟨by omega, by omega⟩

/-- A number below `b` is near to itself only. -/
theorem eq_of_lt (h : Near b x y) (hx : x < b) : x = y := by
  obtain ⟨hle, hge⟩ := h
  rcases lt_trichotomy x y with hlt | heq | hgt
  · have hmul := Nat.mul_le_mul_left b (by omega : 1 ≤ y - x)
    omega
  · exact heq
  · have hmul := Nat.mul_le_mul_left b (by omega : 1 ≤ x - y)
    omega

/-- **Numbers with short significands are equal or far apart.** -/
theorem eq_of_significands {m n e j : Nat} (h : Near b (m * 2 ^ e) (n * 2 ^ j)) (hm : m < b)
    (hn : n < b) : m * 2 ^ e = n * 2 ^ j := by
  -- both are multiples of the smaller power, and one of them a multiple below `b`
  rcases Nat.le_total e j with hle | hle
  · obtain ⟨d, rfl⟩ := Nat.exists_eq_add_of_le hle
    have hcommon : n * 2 ^ (e + d) = n * 2 ^ d * 2 ^ e := by ring
    rw [hcommon] at h ⊢
    rw [((mul_right_iff (Nat.two_pow_pos e)).1 h).eq_of_lt hm]
  · obtain ⟨d, rfl⟩ := Nat.exists_eq_add_of_le hle
    have hcommon : m * 2 ^ (j + d) = m * 2 ^ d * 2 ^ j := by ring
    rw [hcommon] at h ⊢
    rw [((mul_right_iff (Nat.two_pow_pos j)).1 h).symm.eq_of_lt hn]

/-- Half the way to a neighbour is at most the fraction `1 / (2 * b)`, if the neighbour is no
further than the fraction `1 / b`. -/
theorem of_halfway (hspace : z * b ≤ y * (b + 1)) (hyx : y ≤ x)
    (hxz : 2 * x ≤ y + z) : Near (2 * b) x y := by
  obtain ⟨d, rfl⟩ := Nat.exists_eq_add_of_le hyx
  have hmul : b * (2 * d + y) ≤ b * z := Nat.mul_le_mul_left b (by omega)
  refine ⟨?_, by rw [Nat.sub_eq_zero_of_le hyx]; omega⟩
  rw [Nat.add_sub_cancel_left]
  linarith

end Near

namespace Format

variable (f : Format)

/-! ## Roundings are near -/

/-- **A rounding is near to the value**, from the second binade up to infinity. -/
theorem near_nearest (hf : f.Regular) (num den c : Nat) (hden : 0 < den)
    (hlow : f.binade < c) (hhigh : c < f.infinity) (h : f.nearest num den = c) :
    Near (2 * f.binade) num (f.units c * den) := by
  obtain ⟨d, rfl⟩ : ∃ d, c = d + 1 := ⟨c - 1, by omega⟩
  have hbelow := (f.nearest_le_iff hf num den (d + 1) hden hhigh).1 h.le
  have habove := (f.nearest_le_iff hf num den d hden (by omega)).not.1 (by omega)
  have hup : 2 * num ≤ den * (f.units (d + 1) + f.units (d + 1 + 1)) := by
    rcases hbelow with hlt | ⟨heq, -⟩
    · exact hlt.le
    · exact heq.le
  have hdown : den * (f.units d + f.units (d + 1)) ≤ 2 * num := by
    by_contra hnot
    exact habove (.inl (not_le.1 hnot))
  -- the spacing on either side, in multiples of the denominator
  have hspace := Nat.mul_le_mul_left den (f.units_succ_mul_binade_le (d + 1) (by omega))
  have hspace' := Nat.mul_le_mul_left den (f.units_succ_mul_binade_le d (by omega))
  rcases Nat.le_total (f.units (d + 1) * den) num with hle | hle
  · refine Near.of_halfway (z := f.units (d + 1 + 1) * den) ?_ hle ?_
    · linarith
    · linarith
  · -- below the value of the code it is the code before that is near
    have hlower : f.units d * den ≤ num := by
      have hstep := Nat.mul_le_mul_left den (f.units_lt_succ d).le
      linarith
    obtain ⟨t, ht⟩ := Nat.exists_eq_add_of_le hle
    refine ⟨by rw [Nat.sub_eq_zero_of_le hle]; omega, ?_⟩
    have hhalf : 2 * t + f.units d * den ≤ f.units (d + 1) * den := by linarith
    have hscaled := Nat.mul_le_mul_left f.binade hhalf
    rw [ht, Nat.add_sub_cancel_left]
    linarith

/-! ## Significands -/

theorem exists_units_significand (c : Nat) :
    ∃ m s, f.units c = m * 2 ^ s ∧ m < 2 * f.binade := by
  obtain ⟨m, s, rfl, hm, hlt⟩ := f.exists_significand c
  exact ⟨m, s, f.units_add_mul m s hm hlt.le, hlt⟩

/-- A midpoint has one more bit than a magnitude. -/
theorem exists_twiceMid_significand (c : Nat) :
    ∃ m s, f.twiceMid c = m * 2 ^ s ∧ m < 4 * f.binade ∧ s * f.binade ≤ c := by
  obtain ⟨m, s, rfl, hm, hlt⟩ := f.exists_significand c
  refine ⟨2 * m + 1, s, ?_, by omega, by omega⟩
  rw [twiceMid, f.units_succ m s hm hlt, f.units_add_mul m s hm hlt.le]
  ring

theorem two_mul_units_ne_twiceMid (a c : Nat) : 2 * f.units a ≠ f.twiceMid c := by
  have hmono := f.units_strictMono
  have hstep := f.units_lt_succ c
  unfold twiceMid
  rcases Nat.lt_or_ge c a with hlt | hge
  · have := hmono.monotone (by omega : c + 1 ≤ a)
    omega
  · have := hmono.monotone hge
    omega

/-! ## Midpoints of singles -/

/-- A unit of single precision is `2 ^ wideningShift` units of double precision. -/
def wideningShift : Nat := double.scale - single.scale

theorem double_scale_eq : double.scale = wideningShift + single.scale := by decide

/-- **Midpoints of singles are doubles.** They are finite and beyond the first binade. -/
theorem exists_midpoint_code (c : Nat) (hc : c < single.infinity) :
    ∃ k, 2 * double.units k = single.twiceMid c * 2 ^ wideningShift ∧ double.binade < k ∧
      k < double.infinity := by
  obtain ⟨m, s, hmid, hm, hs⟩ := single.exists_twiceMid_significand c
  have hsingle : single.binade = 8388608 := by decide
  have hdouble : double.binade = 4503599627370496 := by decide
  obtain ⟨w, hshift, hw⟩ : ∃ w, wideningShift = w + 1 ∧ w = 924 := ⟨924, by decide, rfl⟩
  have hs255 : s < 255 := by
    have hinf : single.infinity = 255 * single.binade := by decide
    rw [hinf] at hc
    exact Nat.lt_of_mul_lt_mul_right (a := single.binade) (by omega)
  have hpos : 0 < single.twiceMid c := by
    have := single.units_lt_succ c
    unfold twiceMid
    omega
  have hm1 : 1 ≤ m := by
    rw [hmid] at hpos
    exact Nat.pos_of_mul_pos_right hpos
  obtain ⟨k, hk, hle⟩ := double.exists_units_eq m (s + w) (by omega)
  refine ⟨k, ?_, ?_, ?_⟩
  · rw [hk, hmid, hshift]
    ring
  · have hfirst : double.units double.binade = double.binade := by
      simpa using double.units_add_mul double.binade 0 (.inr rfl) (by omega)
    rw [← double.units_strictMono.lt_iff_lt, hfirst, hk, binade_eq]
    have hbits : double.fractionBits < s + w := by
      have : double.fractionBits = 52 := rfl
      omega
    calc 2 ^ double.fractionBits < 2 ^ (s + w) := Nat.pow_lt_pow_right (by omega) hbits
      _ ≤ m * 2 ^ (s + w) := Nat.le_mul_of_pos_left _ hm1
  · have hinf : double.infinity = 2047 * double.binade := by decide
    rw [hinf]
    rw [hdouble] at hle ⊢
    omega

/-- Rounding to a double does not hide on which side of the midpoints of singles a value of
`num / den` units of double precision lies: only what is a midpoint is rounded to one. -/
def KeepsSides (num den : Nat) : Prop :=
  ∀ c k, c < single.infinity → 2 * double.units k = single.twiceMid c * 2 ^ wideningShift →
    double.nearest num den = k → 2 * num = single.twiceMid c * 2 ^ wideningShift * den

/-- What is rounded to a midpoint of singles is near to it. -/
theorem near_midpoint (num den c k : Nat) (hden : 0 < den) (hc : c < single.infinity)
    (hk : 2 * double.units k = single.twiceMid c * 2 ^ wideningShift)
    (h : double.nearest num den = k) :
    Near (2 ^ 53) (2 * num) (single.twiceMid c * 2 ^ wideningShift * den) := by
  obtain ⟨k', hk', hlow, hhigh⟩ := exists_midpoint_code c hc
  obtain rfl : k' = k := double.units_strictMono.injective (by omega)
  have hnear := double.near_nearest double_regular num den k' hden hlow hhigh h
  rw [← hk, mul_assoc, mul_comm 2 num, mul_comm 2 (_ * den)]
  exact (Near.mul_right_iff Nat.two_pos).2 hnear

/-- **Values with short significands keep their sides.** It is enough that the value is a quotient
of which numerator and denominator have such significands. -/
theorem keepsSides_of_significands (num den m e n j : Nat) (hden : 0 < den) (hnum : num = m * 2 ^ e)
    (hdenom : den = n * 2 ^ j) (hm : m < 2 ^ 53) (hn : n < 2 ^ 28) : KeepsSides num den := by
  intro c k hc hk h
  obtain ⟨o, i, hmid, ho, -⟩ := single.exists_twiceMid_significand c
  have hsingle : single.binade = 8388608 := by decide
  have hnear := near_midpoint num den c k hden hc hk h
  have hleft : 2 * num = m * 2 ^ (e + 1) := by rw [hnum]; ring
  have hright : single.twiceMid c * 2 ^ wideningShift * den =
      o * n * 2 ^ (i + wideningShift + j) := by
    rw [hmid, hdenom]
    ring
  rw [hleft, hright] at hnear ⊢
  refine hnear.eq_of_significands hm ?_
  calc o * n < 2 ^ 25 * 2 ^ 28 := Nat.mul_lt_mul'' (by omega) hn
    _ = 2 ^ 53 := by norm_num

/-! ## Rounding twice -/

/-- A value that keeps its sides is on the same side of a midpoint as its double. -/
theorem nearest_lt_midpoint_iff (num den c k : Nat) (hden : 0 < den) (hkeeps : KeepsSides num den)
    (hc : c < single.infinity) (hk : 2 * double.units k = single.twiceMid c * 2 ^ wideningShift) :
    (double.nearest num den < k ↔ 2 * num < single.twiceMid c * 2 ^ wideningShift * den) ∧
      (double.nearest num den = k ↔ 2 * num = single.twiceMid c * 2 ^ wideningShift * den) := by
  obtain ⟨k', hk', -, hhigh⟩ := exists_midpoint_code c hc
  obtain rfl : k' = k := double.units_strictMono.injective (by omega)
  have hmid : single.twiceMid c * 2 ^ wideningShift * den = 2 * (double.units k' * den) := by
    rw [← hk]
    ring
  have hkept := hkeeps c k' hc hk
  have hbelow := double.nearest_le_of_le_units double_regular num den k' hden
  have habove := double.le_nearest_of_units_le double_regular num den k' hden hhigh.le
  have hexact := double.nearest_units double_regular k' den hden hhigh.le
  rw [hmid] at hkept ⊢
  rcases lt_trichotomy num (double.units k' * den) with hlt | heq | hgt
  · have := hbelow hlt.le
    have hne : double.nearest num den ≠ k' := fun h => by have := hkept h; omega
    omega
  · rw [heq, hexact]
    omega
  · have := habove hgt.le
    have hne : double.nearest num den ≠ k' := fun h => by have := hkept h; omega
    omega

/-- **Rounding twice is rounding once** for a value that keeps its sides. The value is `num / den`
units of single precision and `num' / den'` units of double precision. -/
theorem nearest_nearest (num den num' den' : Nat) (hden : 0 < den) (hden' : 0 < den')
    (hsame : num * 2 ^ wideningShift * den' = num' * den) (hkeeps : KeepsSides num' den') :
    single.nearest (double.units (double.nearest num' den') * 2 ^ single.scale)
      (2 ^ double.scale) = single.nearest num den := by
  have hcodes : ∀ c < single.infinity,
      (single.nearest (double.units (double.nearest num' den') * 2 ^ single.scale)
        (2 ^ double.scale) ≤ c ↔ single.nearest num den ≤ c) := by
    intro c hc
    obtain ⟨k, hk, -, -⟩ := exists_midpoint_code c hc
    obtain ⟨hlt, heq⟩ := nearest_lt_midpoint_iff num' den' c k hden' hkeeps hc hk
    have hmono := double.units_strictMono
    have hpow := Nat.two_pow_pos single.scale
    have hwide := Nat.two_pow_pos wideningShift
    rw [single.nearest_le_iff single_regular _ _ c (Nat.two_pow_pos _) hc,
      single.nearest_le_iff single_regular num den c hden hc, StaysBelow, StaysBelow]
    -- both sides compare the value with the midpoint `k`
    have hleft : 2 ^ double.scale * single.twiceMid c = 2 * double.units k * 2 ^ single.scale := by
      rw [hk, double_scale_eq]
      ring
    have hvalue : 2 * num * (2 ^ wideningShift * den') = 2 * num' * den := by linarith
    have hmid : den * single.twiceMid c * (2 ^ wideningShift * den') =
        single.twiceMid c * 2 ^ wideningShift * den' * den := by ring
    have hscale : 0 < 2 ^ wideningShift * den' := Nat.mul_pos hwide hden'
    rw [hleft, ← mul_assoc, Nat.mul_lt_mul_right hpow, Nat.mul_left_inj hpow.ne',
      Nat.mul_lt_mul_left Nat.two_pos, Nat.mul_right_inj (by omega), hmono.lt_iff_lt,
      hmono.injective.eq_iff, hlt, heq, ← Nat.mul_lt_mul_right hden (b := 2 * num'),
      ← Nat.mul_left_inj hden.ne' (b := 2 * num'), ← hvalue, ← hmid, Nat.mul_lt_mul_right hscale,
      Nat.mul_left_inj hscale.ne']
  have hle := single.nearest_le_infinity num den
  have hle' := single.nearest_le_infinity
    (double.units (double.nearest num' den') * 2 ^ single.scale) (2 ^ double.scale)
  rcases Nat.lt_trichotomy (single.nearest num den) (single.nearest
      (double.units (double.nearest num' den') * 2 ^ single.scale) (2 ^ double.scale)) with
    hlt | heq | hgt
  · exact absurd ((hcodes _ (lt_of_lt_of_le hlt hle')).2 le_rfl) (not_le.2 hlt)
  · exact heq.symm
  · exact absurd ((hcodes _ (lt_of_lt_of_le hgt hle)).1 le_rfl) (not_le.2 hgt)

end Format

end NumStack
