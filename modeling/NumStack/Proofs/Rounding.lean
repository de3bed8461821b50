import NumStack.Binary.Format
import Mathlib.Order.Monotone.Basic
import Mathlib.Tactic.GCongr
import Mathlib.Tactic.Linarith
import Mathlib.Tactic.Ring

/-!
# Rounding to the nearest code

The magnitudes of a format ascend strictly with their codes, and `Format.nearest` is rounding to the
nearest of them. The one fact that carries the theory is `nearest_le_iff`: the code chosen for a
quotient is at most `c` exactly if the quotient lies below the midpoint of the codes `c` and
`c + 1`, or on it where `c` is even. Monotonicity, exactness on magnitudes and the rounding
intervals all follow from it without opening the definition again.
-/

namespace NumStack

/-! ## Rounding a quotient -/

/-- A quotient is at most half above its rounding; on the half the rounding is even. -/
theorem two_mul_le_roundDiv (num den : Nat) (hden : 0 < den) :
    2 * num < (2 * roundDiv num den + 1) * den ∨
      (2 * num = (2 * roundDiv num den + 1) * den ∧ roundDiv num den % 2 = 0) := by
  have hdm := Nat.div_add_mod num den
  have hlt := Nat.mod_lt num hden
  have hmul : (2 * (num / den) + 1) * den = 2 * (den * (num / den)) + den := by ring
  have hmul' : (2 * (num / den + 1) + 1) * den = 2 * (den * (num / den)) + 3 * den := by ring
  unfold roundDiv
  split
  · rw [hmul]
    omega
  · rw [hmul']
    omega

/-- A quotient is at most half below its rounding; on the half the rounding is even. -/
theorem roundDiv_le_two_mul (num den : Nat) (hden : 0 < den) :
    2 * roundDiv num den * den < 2 * num + den ∨
      (2 * roundDiv num den * den = 2 * num + den ∧ roundDiv num den % 2 = 0) := by
  have hdm := Nat.div_add_mod num den
  have hlt := Nat.mod_lt num hden
  have hmul : 2 * (num / den) * den = 2 * (den * (num / den)) := by ring
  have hmul' : 2 * (num / den + 1) * den = 2 * (den * (num / den)) + 2 * den := by ring
  unfold roundDiv
  split
  · rw [hmul]
    omega
  · rw [hmul']
    omega

namespace Format

variable (f : Format)

/-! ## Magnitudes ascend with their codes -/

theorem binade_eq : f.binade = 2 ^ f.fractionBits := rfl

theorem units_eq (c : Nat) :
    f.units c =
      if c < f.binade then c else (f.binade + c % f.binade) * 2 ^ (c / f.binade - 1) := rfl

/-- The magnitude of a code written as a significand and a shift. The significand may be the next
power of two, which is where a binade ends and the following one starts. -/
theorem units_add_mul (m s : Nat) (hm : f.binade ≤ m ∨ s = 0) (hle : m ≤ 2 * f.binade) :
    f.units (m + s * f.binade) = m * 2 ^ s := by
  have hpos := f.binade_pos
  rw [units_eq]
  rcases Nat.lt_or_ge m f.binade with hlt | hge
  · have hs : s = 0 := by omega
    subst hs
    simp [hlt]
  · have hcode : ¬ m + s * f.binade < f.binade := by
      have := Nat.zero_le (s * f.binade)
      omega
    rw [if_neg hcode, Nat.add_mul_mod_self_right, Nat.add_mul_div_right _ _ hpos]
    rcases Nat.lt_or_ge m (2 * f.binade) with hlt | hge2
    · have hdiv : m / f.binade = 1 := Nat.div_eq_of_lt_le (by omega) (by omega)
      have hmod : m % f.binade = m - f.binade := by
        rw [Nat.mod_eq_sub_mod hge, Nat.mod_eq_of_lt (by omega)]
      rw [hdiv, hmod, show f.binade + (m - f.binade) = m by omega, show 1 + s - 1 = s by omega]
    · have hm2 : m = 2 * f.binade := by omega
      have hdiv : m / f.binade = 2 := by rw [hm2, Nat.mul_div_cancel _ hpos]
      have hmod : m % f.binade = 0 := by rw [hm2, Nat.mul_mod_left]
      rw [hdiv, hmod, hm2, show 2 + s - 1 = s + 1 by omega, pow_succ]
      ring

/-- Every code is a significand below the next power of two, and a shift. -/
theorem exists_significand (c : Nat) :
    ∃ m s, c = m + s * f.binade ∧ (f.binade ≤ m ∨ s = 0) ∧ m < 2 * f.binade := by
  have hpos := f.binade_pos
  have hdm := Nat.div_add_mod c f.binade
  have hlt := Nat.mod_lt c hpos
  rcases Nat.eq_zero_or_pos (c / f.binade) with hq | hq
  · refine ⟨c, 0, by omega, Or.inr rfl, ?_⟩
    rw [hq] at hdm
    omega
  · refine ⟨f.binade + c % f.binade, c / f.binade - 1, ?_, Or.inl (by omega), by omega⟩
    obtain ⟨k, hk⟩ : ∃ k, c / f.binade = k + 1 := ⟨c / f.binade - 1, by omega⟩
    rw [hk] at hdm ⊢
    have hmul : f.binade * (k + 1) = k * f.binade + f.binade := by ring
    rw [Nat.add_sub_cancel]
    omega

/-- The distance from a code to the next one is the weight of the significand's last bit. -/
theorem units_succ (m s : Nat) (hm : f.binade ≤ m ∨ s = 0) (hlt : m < 2 * f.binade) :
    f.units (m + s * f.binade + 1) = f.units (m + s * f.binade) + 2 ^ s := by
  rw [f.units_add_mul m s hm (by omega), show m + s * f.binade + 1 = (m + 1) + s * f.binade by ring,
    f.units_add_mul (m + 1) s (by omega) (by omega)]
  ring

theorem units_lt_succ (c : Nat) : f.units c < f.units (c + 1) := by
  obtain ⟨m, s, rfl, hm, hlt⟩ := f.exists_significand c
  rw [f.units_succ m s hm hlt]
  have := Nat.two_pow_pos s
  omega

theorem units_strictMono : StrictMono f.units :=
  strictMono_nat_of_lt_succ f.units_lt_succ

/-- **Relative spacing.** From the first binade on, neighbouring magnitudes differ by at most the
fraction `1 / binade` of the smaller one. -/
theorem units_succ_mul_binade_le (c : Nat) (hc : f.binade ≤ c) :
    f.units (c + 1) * f.binade ≤ f.units c * (f.binade + 1) := by
  obtain ⟨m, s, rfl, hm, hlt⟩ := f.exists_significand c
  have hge : f.binade ≤ m := by
    rcases hm with hm | rfl
    · exact hm
    · omega
  rw [f.units_succ m s hm hlt, f.units_add_mul m s hm (by omega)]
  have hmul := Nat.mul_le_mul_right (2 ^ s) hge
  nlinarith

/-- A significand of at most `fractionBits + 1` bits, shifted by any amount, is the magnitude of a
code. -/
theorem exists_units_eq (m s : Nat) (hm : m ≤ 2 * f.binade) :
    ∃ c, f.units c = m * 2 ^ s ∧ c ≤ m + s * f.binade := by
  -- below the first binade the significand is doubled and the shift reduced until one of them stops
  induction s generalizing m with
  | zero => exact ⟨m + 0 * f.binade, f.units_add_mul m 0 (Or.inr rfl) hm, le_refl _⟩
  | succ s ih =>
    rcases Nat.lt_or_ge m f.binade with hlt | hge
    · obtain ⟨c, hc, hle⟩ := ih (2 * m) (by omega)
      refine ⟨c, by rw [hc, pow_succ]; ring, ?_⟩
      have hmul : (s + 1) * f.binade = s * f.binade + f.binade := by ring
      omega
    · exact ⟨m + (s + 1) * f.binade, f.units_add_mul m (s + 1) (Or.inl hge) hm, le_refl _⟩

/-! ## Midpoints -/

/-- Twice the midpoint between the magnitudes of a code and of the next one. -/
def twiceMid (c : Nat) : Nat := f.units c + f.units (c + 1)

theorem twiceMid_strictMono : StrictMono f.twiceMid := by
  apply strictMono_nat_of_lt_succ
  intro c
  have h1 := f.units_lt_succ c
  have h2 := f.units_lt_succ (c + 1)
  unfold twiceMid
  omega

/-- Whether `num / den` units lie below the midpoint above the code `c`, or on it and `c`, being
even, wins the tie. -/
def StaysBelow (num den c : Nat) : Prop :=
  2 * num < den * f.twiceMid c ∨ (2 * num = den * f.twiceMid c ∧ c % 2 = 0)

/-- A smaller quotient stays below the same midpoint. -/
theorem StaysBelow.of_le {num den num' den' c : Nat} (hden : 0 < den) (hden' : 0 < den')
    (hle : num * den' ≤ num' * den) (h : f.StaysBelow num' den' c) : f.StaysBelow num den c := by
  unfold StaysBelow at *
  have hscale : 2 * num * den' ≤ 2 * num' * den := by linarith
  have hcross : den * f.twiceMid c * den' = den' * f.twiceMid c * den := by ring
  rcases h with h | ⟨h, heven⟩
  · left
    have hlt := Nat.mul_lt_mul_of_pos_right h hden
    exact lt_of_mul_lt_mul_right (by omega : 2 * num * den' < den * f.twiceMid c * den')
      (Nat.zero_le _)
  · have hle' : 2 * num * den' ≤ den * f.twiceMid c * den' := by
      rw [hcross, ← h]
      exact hscale
    rcases Nat.lt_or_eq_of_le (Nat.le_of_mul_le_mul_right hle' hden') with hlt | heq
    · exact Or.inl hlt
    · exact Or.inr ⟨heq, heven⟩

/-! ## The nearest code -/

/-- The shift that leaves a significand of `fractionBits + 1` bits, or none at all. -/
def shift (num den : Nat) : Nat := (num / den).log2 - f.fractionBits

/-- The nearest code if codes went on beyond infinity. -/
def rounded (num den : Nat) : Nat :=
  roundDiv num (den * 2 ^ f.shift num den) + f.shift num den * f.binade

theorem nearest_eq_min (num den : Nat) :
    f.nearest num den = min f.infinity (f.rounded num den) := rfl

/-- Shifted down, a quotient is a significand: it is below the next power of two, and in the first
binade at least where anything was shifted. -/
theorem significand_bounds (num den : Nat) :
    num / (den * 2 ^ f.shift num den) < 2 * f.binade ∧
      (f.binade ≤ num / (den * 2 ^ f.shift num den) ∨ f.shift num den = 0) := by
  rw [binade_eq, ← Nat.div_div_eq_div_mul]
  have hs : f.shift num den = (num / den).log2 - f.fractionBits := rfl
  have hlt := Nat.lt_log2_self (n := num / den)
  constructor
  · rw [Nat.div_lt_iff_lt_mul (Nat.two_pow_pos _), mul_assoc, ← pow_add, mul_comm, ← pow_succ]
    exact lt_of_lt_of_le hlt (Nat.pow_le_pow_right (by omega) (by omega))
  · rcases Nat.eq_zero_or_pos (f.shift num den) with h0 | hpos
    · exact Or.inr h0
    · left
      have hne : num / den ≠ 0 := by
        intro h
        rw [h, Nat.log2_zero] at hs
        omega
      rw [Nat.le_div_iff_mul_le (Nat.two_pow_pos _), ← pow_add]
      exact le_trans (Nat.pow_le_pow_right (by omega) (by omega)) (Nat.log2_self_le hne)

/-- What the theory asks of a format: its fraction has a last bit, which decides ties; the number
one is beyond the first binade; and a full significand shifted to whole numbers is still finite. -/
structure Regular : Prop where
  fractionBits_pos : 0 < f.fractionBits
  fractionBits_lt_scale : f.fractionBits < f.scale
  whole_lt_infinity : (f.scale + 2) * f.binade < f.infinity

theorem single_regular : single.Regular := ⟨by decide, by decide, by decide⟩

theorem double_regular : double.Regular := ⟨by decide, by decide, by decide⟩

/-- A code and its significand are even together, as every binade has an even number of codes. -/
theorem code_mod_two (hf : f.Regular) (m s : Nat) : (m + s * f.binade) % 2 = m % 2 := by
  obtain ⟨k, hk⟩ : ∃ k, f.fractionBits = k + 1 := by
    have := hf.fractionBits_pos
    exact ⟨f.fractionBits - 1, by omega⟩
  have hb : s * f.binade = 2 * (s * 2 ^ k) := by
    rw [binade_eq, hk, pow_succ]
    ring
  omega

/-- The quotient stays below the midpoint above its rounding. -/
theorem staysBelow_rounded (hf : f.Regular) (num den : Nat) (hden : 0 < den) :
    f.StaysBelow num den (f.rounded num den) := by
  obtain ⟨hlt, hm⟩ := f.significand_bounds num den
  unfold StaysBelow twiceMid rounded
  set s := f.shift num den
  have hD : 0 < den * 2 ^ s := Nat.mul_pos hden (Nat.two_pow_pos _)
  have hup := roundDiv_le num (den * 2 ^ s)
  have hdown := le_roundDiv num (den * 2 ^ s)
  set m := roundDiv num (den * 2 ^ s)
  rcases Nat.lt_or_ge m (2 * f.binade) with hm2 | hm2
  · rw [f.units_succ m s (by omega) hm2, f.units_add_mul m s (by omega) (by omega),
      f.code_mod_two hf]
    have hmid : den * (m * 2 ^ s + (m * 2 ^ s + 2 ^ s)) = (2 * m + 1) * (den * 2 ^ s) := by ring
    rw [hmid]
    exact two_mul_le_roundDiv num _ hD
  · -- The significand was rounded up to the next power of two, so the quotient is below it.
    left
    have hnum : num < den * 2 ^ s * (2 * f.binade) := by
      rw [mul_comm]
      exact (Nat.div_lt_iff_lt_mul hD).1 hlt
    have hstep := f.units_lt_succ (m + s * f.binade)
    rw [f.units_add_mul m s (by omega) (by omega)] at hstep
    rw [f.units_add_mul m s (by omega) (by omega)]
    have hmul : den * 2 ^ s * (2 * f.binade) ≤ den * (m * 2 ^ s) := by
      rw [mul_assoc, mul_comm (2 ^ s)]
      exact Nat.mul_le_mul_left _ (Nat.mul_le_mul_right _ hm2)
    have hmono : den * (m * 2 ^ s) ≤ den * f.units (m + s * f.binade + 1) :=
      Nat.mul_le_mul_left _ hstep.le
    rw [mul_add]
    omega

/-- The quotient does not stay below the midpoint under its rounding. -/
theorem not_staysBelow_of_succ_eq_rounded (hf : f.Regular) (num den c : Nat)
    (hden : 0 < den) (hc : c + 1 = f.rounded num den) : ¬ f.StaysBelow num den c := by
  obtain ⟨hlt, hm⟩ := f.significand_bounds num den
  unfold StaysBelow twiceMid
  unfold rounded at hc
  set s := f.shift num den
  have hD : 0 < den * 2 ^ s := Nat.mul_pos hden (Nat.two_pow_pos _)
  have hup := roundDiv_le num (den * 2 ^ s)
  have hdown := le_roundDiv num (den * 2 ^ s)
  have hround := roundDiv_le_two_mul num (den * 2 ^ s) hD
  set m := roundDiv num (den * 2 ^ s)
  have hpar := f.code_mod_two hf m s
  by_cases hsame : f.binade < m ∨ s = 0
  · -- The code before has the same shift: the two are one step of the significand apart.
    obtain ⟨k, hk⟩ : ∃ k, m = k + 1 := by
      refine ⟨m - 1, ?_⟩
      rcases hsame with hbm | hs
      · omega
      · rw [hs] at hc
        omega
    have hpred : c = k + s * f.binade := by omega
    have hmid : den * (f.units c + f.units (c + 1)) + den * 2 ^ s = 2 * m * (den * 2 ^ s) := by
      rw [hpred, f.units_succ k s (by omega) (by omega), f.units_add_mul k s (by omega) (by omega),
        hk]
      ring
    omega
  · -- The significand is the first of its binade, so the quotient is no smaller than its code.
    have hmb : m = f.binade := by omega
    have hnum : den * f.units (c + 1) ≤ num := by
      rw [hc, f.units_add_mul m s (by omega) (by omega), mul_left_comm]
      have hq : m ≤ num / (den * 2 ^ s) := by omega
      exact (Nat.le_div_iff_mul_le hD).1 hq
    have hstep := Nat.mul_lt_mul_of_pos_left (f.units_lt_succ c) hden
    rw [mul_add]
    omega

/-- **Rounding is to the nearest code.** The code chosen for a quotient is at most `c` exactly if
the quotient stays below the midpoint above `c`. -/
theorem nearest_le_iff (hf : f.Regular) (num den c : Nat) (hden : 0 < den)
    (hc : c < f.infinity) : f.nearest num den ≤ c ↔ f.StaysBelow num den c := by
  rw [nearest_eq_min]
  have hmono := f.twiceMid_strictMono
  constructor
  · intro h
    have hle : f.rounded num den ≤ c := by omega
    have hbelow := f.staysBelow_rounded hf num den hden
    rcases Nat.lt_or_eq_of_le hle with hlt | heq
    · left
      have hmul := Nat.mul_lt_mul_of_pos_left (hmono hlt) hden
      rcases hbelow with h | ⟨h, _⟩ <;> omega
    · rw [← heq]
      exact hbelow
  · -- otherwise the quotient would stay below a midpoint under its own rounding
    intro h
    by_contra hnot
    have hgt : c < f.rounded num den := by omega
    obtain ⟨d, hd⟩ : ∃ d, d + 1 = f.rounded num den := ⟨f.rounded num den - 1, by omega⟩
    have habove := f.not_staysBelow_of_succ_eq_rounded hf num den d hden hd
    rcases Nat.lt_or_eq_of_le (by omega : c ≤ d) with hlt | rfl
    · have hmul := Nat.mul_lt_mul_of_pos_left (hmono hlt) hden
      apply habove
      left
      rcases h with h | ⟨h, _⟩ <;> omega
    · exact habove h

/-! ## What follows from it -/

/-- **Rounding is monotone.** -/
theorem nearest_mono (hf : f.Regular) (num den num' den' : Nat) (hden : 0 < den)
    (hden' : 0 < den') (hle : num * den' ≤ num' * den) :
    f.nearest num den ≤ f.nearest num' den' := by
  rcases Nat.lt_or_eq_of_le (f.nearest_le_infinity num' den') with hlt | heq
  · rw [f.nearest_le_iff hf num den _ hden hlt]
    exact StaysBelow.of_le f hden hden' hle ((f.nearest_le_iff hf num' den' _ hden' hlt).1 le_rfl)
  · rw [heq]
    exact f.nearest_le_infinity num den

theorem nearest_congr (hf : f.Regular) (num den num' den' : Nat) (hden : 0 < den)
    (hden' : 0 < den') (heq : num * den' = num' * den) :
    f.nearest num den = f.nearest num' den' :=
  le_antisymm (f.nearest_mono hf _ _ _ _ hden hden' heq.le)
    (f.nearest_mono hf _ _ _ _ hden' hden heq.ge)

/-- A quotient of at most the magnitude of a code rounds to at most that code. -/
theorem nearest_le_of_le_units (hf : f.Regular) (num den c : Nat) (hden : 0 < den)
    (hle : num ≤ f.units c * den) : f.nearest num den ≤ c := by
  rcases Nat.lt_or_ge c f.infinity with hc | hc
  · rw [f.nearest_le_iff hf num den c hden hc]
    left
    have hstep := Nat.mul_lt_mul_of_pos_left (f.units_lt_succ c) hden
    have hcomm := mul_comm (f.units c) den
    rw [twiceMid, mul_add]
    omega
  · exact le_trans (f.nearest_le_infinity num den) hc

theorem le_nearest_of_units_le (hf : f.Regular) (num den c : Nat) (hden : 0 < den)
    (hc : c ≤ f.infinity) (hle : f.units c * den ≤ num) : c ≤ f.nearest num den := by
  by_contra hnot
  obtain ⟨d, rfl⟩ : ∃ d, c = d + 1 := ⟨c - 1, by omega⟩
  have hbelow := (f.nearest_le_iff hf num den d hden (by omega)).1 (by omega)
  have hstep := Nat.mul_lt_mul_of_pos_left (f.units_lt_succ d) hden
  have hcomm := mul_comm (f.units (d + 1)) den
  rcases hbelow with h | ⟨h, _⟩ <;> rw [twiceMid, mul_add] at h <;> omega

/-- **Rounding is exact on magnitudes.** -/
theorem nearest_units (hf : f.Regular) (c den : Nat) (hden : 0 < den)
    (hc : c ≤ f.infinity) : f.nearest (f.units c * den) den = c :=
  le_antisymm (f.nearest_le_of_le_units hf _ _ _ hden le_rfl)
    (f.le_nearest_of_units_le hf _ _ _ hden hc le_rfl)

/-! ## Whole numbers -/

/-- Whole numbers of at most a full significand round to themselves, and are finite. -/
theorem units_nearest_whole (hf : f.Regular) (n : Nat) (hn : n ≤ 2 * f.binade) :
    f.nearest (n * 2 ^ f.scale) 1 < f.infinity ∧
      f.units (f.nearest (n * 2 ^ f.scale) 1) = n * 2 ^ f.scale := by
  obtain ⟨c, hc, hle⟩ := f.exists_units_eq n f.scale hn
  have hlt : c < f.infinity := by
    have hfit := hf.whole_lt_infinity
    have hmul : (f.scale + 2) * f.binade = f.scale * f.binade + 2 * f.binade := by ring
    omega
  have hcode : f.nearest (n * 2 ^ f.scale) 1 = c := by
    have hexact := f.nearest_units hf c 1 Nat.one_pos hlt.le
    rwa [hc, mul_one] at hexact
  rw [hcode]
  exact ⟨hlt, hc⟩

/-- **Rounding a quotient of whole numbers keeps its whole part.** The quotient is further below the
next whole number than the spacing of the magnitudes there. -/
theorem units_nearest_div_scale (hf : f.Regular) (m d : Nat) (hd : 0 < d) (hm : m ≤ f.binade) :
    f.units (f.nearest (m * 2 ^ f.scale) d) / 2 ^ f.scale = m / d := by
  have hpow := Nat.two_pow_pos f.scale
  have hpos := f.binade_pos
  have hq : m / d ≤ m := Nat.div_le_self m d
  obtain ⟨hlt, hunits⟩ := f.units_nearest_whole hf (m / d) (by omega)
  obtain ⟨-, hunits'⟩ := f.units_nearest_whole hf (m / d + 1) (by omega)
  set c := f.nearest (m / d * 2 ^ f.scale) 1
  set c' := f.nearest ((m / d + 1) * 2 ^ f.scale) 1
  apply Nat.div_eq_of_lt_le
  · -- the whole part is a magnitude, so rounding does not pass it
    rw [← hunits]
    apply f.units_strictMono.monotone
    apply f.le_nearest_of_units_le hf _ _ _ hd hlt.le
    rw [hunits, mul_right_comm]
    exact Nat.mul_le_mul_right _ (Nat.div_mul_le_self m d)
  · rw [← hunits']
    apply f.units_strictMono
    have hfirst : f.binade < c' := by
      rw [← f.units_strictMono.lt_iff_lt, hunits']
      have hb : f.units f.binade = f.binade := by
        simpa using f.units_add_mul f.binade 0 (Or.inr rfl) (by omega)
      have hlt' : f.binade < 2 ^ f.scale :=
        Nat.pow_lt_pow_right (by omega) hf.fractionBits_lt_scale
      rw [hb]
      exact lt_of_lt_of_le hlt' (Nat.le_mul_of_pos_left _ (Nat.succ_pos _))
    obtain ⟨e, he⟩ : ∃ e, c' = e + 1 := ⟨c' - 1, by omega⟩
    have hgap := f.units_succ_mul_binade_le e (by omega)
    rw [← he, hunits'] at hgap
    rw [he, Nat.lt_succ_iff]
    apply f.nearest_le_of_le_units hf _ _ _ hd
    -- clear the denominator of the relative spacing
    have hnext : m + 1 ≤ (m / d + 1) * d := by
      rw [mul_comm]
      exact Nat.lt_mul_div_succ m hd
    have hkey : m * 2 ^ f.scale * (f.binade + 1) ≤ f.units e * d * (f.binade + 1) := by
      calc m * 2 ^ f.scale * (f.binade + 1)
          = (m * f.binade + m) * 2 ^ f.scale := by ring
        _ ≤ (m * f.binade + f.binade) * 2 ^ f.scale := by gcongr
        _ = (m + 1) * (f.binade * 2 ^ f.scale) := by ring
        _ ≤ (m / d + 1) * d * (f.binade * 2 ^ f.scale) := by gcongr
        _ = (m / d + 1) * 2 ^ f.scale * f.binade * d := by ring
        _ ≤ f.units e * (f.binade + 1) * d := by gcongr
        _ = f.units e * d * (f.binade + 1) := by ring
    exact Nat.le_of_mul_le_mul_right hkey (Nat.succ_pos _)

end Format

end NumStack
