import NumStack.Proofs.DoubleRounding
import NumStack.Proofs.LiteralValues

/-!
# Single-precision arithmetic

Operands of single precision are combined as doubles, and the result is narrowed. Sums, products and
quotients of two singles keep their sides of the midpoints of singles when they are rounded to a
double, and a remainder of two singles is a single itself. So the detour through doubles is not
seen: what comes out is the exact result rounded once to single precision.
-/

namespace NumStack

namespace Format

/-! ## Units -/

theorem two_pow_scale (f : Format) : Nat.pow 2 f.scale = 2 ^ f.scale := rfl

theorem two_pow_double_scale : 2 ^ double.scale = 2 ^ wideningShift * 2 ^ single.scale := by
  rw [double_scale_eq, pow_add]

/-! ## Results that keep their sides -/

theorem exists_single_significand (c : ℕ) : ∃ m s, single.units c = m * 2 ^ s ∧ m < 2 ^ 24 := by
  obtain ⟨m, s, hunits, hm⟩ := single.exists_units_significand c
  have hbits : 2 * single.binade = 2 ^ 24 := by decide
  exact ⟨m, s, hunits, hbits ▸ hm⟩

/-- A sum that is near to a midpoint of singles is the midpoint, if the second summand has the
smaller shift. -/
theorem two_mul_sum_eq_twiceMid (u v : ℤ) (a m e n j c : ℕ) (hu : u.natAbs = single.units a)
    (hunits : single.units a = m * 2 ^ e) (hv : v.natAbs = n * 2 ^ j) (hm : m < 2 ^ 24)
    (hn : n < 2 ^ 24) (hle : j ≤ e)
    (hnear : Near (2 ^ 53) (2 * (u + v).natAbs) (single.twiceMid c)) :
    2 * (u + v).natAbs = single.twiceMid c := by
  obtain ⟨o, i, hmid, ho, -⟩ := single.exists_twiceMid_significand c
  have hsingle : single.binade = 8388608 := by decide
  obtain ⟨t, ht⟩ : 2 ^ j ∣ (u + v).natAbs := by
    rw [← Int.natCast_dvd]
    refine dvd_add ?_ ?_
    · rw [Int.natCast_dvd, hu, hunits]
      exact Dvd.dvd.mul_left (pow_dvd_pow 2 hle) m
    · rw [Int.natCast_dvd, hv]
      exact dvd_mul_left _ n
  rcases Nat.lt_or_ge t (2 ^ 53) with hshort | hlong
  · have hsum : 2 * (u + v).natAbs = t * 2 ^ (j + 1) := by
      rw [ht]
      ring
    rw [hsum, hmid] at hnear ⊢
    exact hnear.eq_of_significands hshort (by omega)
  · -- the second summand is so small that the midpoint would be near to the first
    have hsmall : 4 * 2 ^ 27 * (2 * v.natAbs) ≤ 2 * (u + v).natAbs := by
      have hless := Nat.mul_le_mul_right (2 ^ j) hn.le
      have hmore := Nat.mul_le_mul_left (2 ^ j) hlong
      rw [hv, ht]
      omega
    have hfirst : Near (2 ^ 27) (2 * single.units a) (single.twiceMid c) := by
      refine (hnear.mono (by norm_num)).of_close hsmall ?_ ?_
      · omega
      · omega
    refine absurd ?_ (single.two_mul_units_ne_twiceMid a c)
    have hdouble : 2 * single.units a = m * 2 ^ (e + 1) := by
      rw [hunits]
      ring
    rw [hdouble, hmid] at hfirst ⊢
    exact hfirst.eq_of_significands (by omega) (by omega)

/-- **Sums of singles keep their sides.** -/
theorem keepsSides_sum (u v : ℤ) (a b : ℕ) (hu : u.natAbs = single.units a)
    (hv : v.natAbs = single.units b) :
    KeepsSides ((u + v).natAbs * 2 ^ wideningShift) 1 := by
  intro c k hc hk h
  have hnear := near_midpoint _ 1 c k Nat.one_pos hc hk h
  rw [mul_one, ← mul_assoc] at hnear ⊢
  rw [Near.mul_right_iff (Nat.two_pow_pos _)] at hnear
  rw [Nat.mul_left_inj (Nat.two_pow_pos _).ne']
  obtain ⟨m, e, hm, hm24⟩ := exists_single_significand a
  obtain ⟨n, j, hn, hn24⟩ := exists_single_significand b
  rcases Nat.le_total j e with hle | hle
  · exact two_mul_sum_eq_twiceMid u v a m e n j c hu hm (hv.trans hn) hm24 hn24 hle hnear
  · rw [add_comm] at hnear ⊢
    exact two_mul_sum_eq_twiceMid v u b n j m e c hv hn (hu.trans hm) hn24 hm24 hle hnear

/-- **Products of singles keep their sides.** -/
theorem keepsSides_product (a b : ℕ) :
    KeepsSides (single.units a * 2 ^ wideningShift * (single.units b * 2 ^ wideningShift))
      (2 ^ double.scale) := by
  obtain ⟨m, e, hm, hm24⟩ := exists_single_significand a
  obtain ⟨n, j, hn, hn24⟩ := exists_single_significand b
  refine keepsSides_of_significands _ _ (m * n) (e + wideningShift + (j + wideningShift)) 1
    double.scale (Nat.two_pow_pos _) ?_ ?_ ?_ (by norm_num)
  · rw [hm, hn]
    ring
  · rw [one_mul]
  · calc m * n < 2 ^ 24 * 2 ^ 24 := Nat.mul_lt_mul'' hm24 hn24
      _ ≤ 2 ^ 53 := by norm_num

/-- **Quotients of singles keep their sides.** -/
theorem keepsSides_quotient (a b : ℕ) (hb : 0 < single.units b) :
    KeepsSides (single.units a * 2 ^ wideningShift * 2 ^ double.scale)
      (single.units b * 2 ^ wideningShift) := by
  obtain ⟨m, e, hm, hm24⟩ := exists_single_significand a
  obtain ⟨n, j, hn, hn24⟩ := exists_single_significand b
  refine keepsSides_of_significands _ _ m (e + wideningShift + double.scale) n (j + wideningShift)
    (Nat.mul_pos hb (Nat.two_pow_pos _)) ?_ ?_ (by omega) (by omega)
  · rw [hm]
    ring
  · rw [hn]
    ring

/-- **Singles keep their sides**, being sums with zero. -/
theorem keepsSides_units (a : ℕ) : KeepsSides (single.units a * 2 ^ wideningShift) 1 := by
  simpa using keepsSides_sum (single.units a) 0 a 0 (Int.natAbs_natCast _) (by simp [units_zero])

variable (f : Format)

/-- **Remainders are magnitudes**: a remainder of two magnitudes is a multiple of the smaller of
their last bits, and no greater than either. -/
theorem exists_units_mod (a b : ℕ) (hb : 0 < f.units b) :
    ∃ r, f.units r = f.units a % f.units b ∧ r ≤ a := by
  obtain ⟨m, e, hm, hmlt⟩ := f.exists_units_significand a
  obtain ⟨n, j, hn, hnlt⟩ := f.exists_units_significand b
  have hdividend := Nat.mod_le (f.units a) (f.units b)
  have hdivisor := (Nat.mod_lt (f.units a) hb).le
  obtain ⟨t, i, hrem, ht⟩ : ∃ t i, f.units a % f.units b = t * 2 ^ i ∧ t ≤ 2 * f.binade := by
    rcases Nat.le_total e j with hle | hle
    · obtain ⟨t, ht⟩ : 2 ^ e ∣ f.units a % f.units b := by
        rw [Nat.dvd_mod_iff (hn ▸ Dvd.dvd.mul_left (pow_dvd_pow 2 hle) n), hm]
        exact dvd_mul_left _ m
      rw [mul_comm] at ht
      rw [ht, hm] at hdividend
      exact ⟨t, e, ht, (Nat.le_of_mul_le_mul_right hdividend (Nat.two_pow_pos e)).trans hmlt.le⟩
    · obtain ⟨t, ht⟩ : 2 ^ j ∣ f.units a % f.units b := by
        rw [Nat.dvd_mod_iff (hn ▸ dvd_mul_left _ n), hm]
        exact Dvd.dvd.mul_left (pow_dvd_pow 2 hle) m
      rw [mul_comm] at ht
      rw [ht, hn] at hdivisor
      exact ⟨t, j, ht, (Nat.le_of_mul_le_mul_right hdivisor (Nat.two_pow_pos j)).trans hnlt.le⟩
  obtain ⟨r, hr, -⟩ := f.exists_units_eq t i ht
  rw [← hrem] at hr
  exact ⟨r, hr, f.units_strictMono.le_iff_le.1 (hr ▸ hdividend)⟩

end Format

namespace Binary

open Format

/-! ## Widening and narrowing -/

/-- A finite single is widened to the double of its sign and magnitude. -/
theorem exists_wide (x : Single) (hx : x.isFinite = true) :
    ∃ s a h k hk, x = number s a h ∧ x.convert = (number s k hk : Double) ∧
      a < single.infinity ∧ k < double.infinity ∧
      double.units k = single.units a * 2 ^ wideningShift := by
  obtain ⟨s, a, h, rfl, ha⟩ := exists_number_of_isFinite x hx
  obtain ⟨hlt, hunits⟩ := units_nearest_wide a ha
  refine ⟨s, a, h, _, _, rfl, convert_of_lt s a h ha, ha, hlt, ?_⟩
  apply Nat.eq_of_mul_eq_mul_right (Nat.two_pow_pos single.scale)
  rw [hunits, two_pow_double_scale, mul_assoc]

theorem units_pos {f : Format} (c : ℕ) (hc : c ≠ 0) : 0 < f.units c :=
  Nat.pos_of_ne_zero ((units_eq_zero_iff c).not.2 hc)

theorem code_ne_zero_of_units {f g : Format} (c k n : ℕ) (hunits : g.units k = f.units c * n)
    (hc : c ≠ 0) (hn : 0 < n) : k ≠ 0 := by
  rintro rfl
  rw [units_zero] at hunits
  exact absurd hunits (Nat.mul_pos (units_pos c hc) hn).ne

/-- Every double is narrowed by rounding its magnitude, infinity too. -/
theorem convert_number (s : Bool) (k : ℕ) (h : k ≤ double.infinity) :
    ((number s k h : Double).convert : Single) =
      ofRatio s (double.units k * 2 ^ single.scale) (2 ^ double.scale) := by
  rcases Nat.lt_or_eq_of_le h with hlt | rfl
  · exact convert_of_lt s k h hlt
  · have hbeyond : single.infinity ≤ single.nearest
        (double.units double.infinity * 2 ^ single.scale) (2 ^ double.scale) :=
      single.le_nearest_of_units_le single_regular _ _ _ (Nat.two_pow_pos _) le_rfl
        (by decide +kernel)
    rw [convert, if_pos rfl, infinite, ofRatio, number.injEq]
    exact ⟨rfl, le_antisymm hbeyond (single.nearest_le_infinity _ _)⟩

/-- **A rounding that keeps its sides is narrowed to the rounding in single precision.** -/
theorem convert_ofRatio (s : Bool) (num den num' den' : ℕ) (hden : 0 < den) (hden' : 0 < den')
    (hsame : num * 2 ^ wideningShift * den' = num' * den) (hkeeps : KeepsSides num' den') :
    ((ofRatio s num' den' : Double).convert : Single) = ofRatio s num den := by
  rw [ofRatio, convert_number, ofRatio, ofRatio, number.injEq]
  exact ⟨rfl, nearest_nearest num den num' den' hden hden' hsame hkeeps⟩

theorem convert_neg {f g : Format} (x : Binary f) :
    (x.neg.convert : Binary g) = (x.convert : Binary g).neg := by
  cases x with
  | nan => rfl
  | number s c h =>
    simp only [neg, convert]
    split <;> rfl

/-- The signed units of a code whose magnitude is a multiple of another one. -/
theorem signedUnits_number_mul {f g : Format} (s : Bool) (c k n : ℕ) (h : c ≤ f.infinity)
    (hk : k ≤ g.infinity) (hunits : g.units k = f.units c * n) :
    (number s k hk).signedUnits = (number s c h).signedUnits * n := by
  rw [signedUnits_number, signedUnits_number, hunits, Nat.cast_mul]
  cases s with
  | false => rfl
  | true => exact (neg_mul _ _).symm

/-! ## Operations on singles -/

/-- **Sums in double precision are narrowed to sums in single precision.** -/
theorem convert_add (x y : Single) (hx : x.isFinite = true) (hy : y.isFinite = true) :
    (((x.convert : Double).add y.convert).convert : Single) = x.add y := by
  obtain ⟨s, a, ha, k, hk, rfl, hwide, hlta, hltk, hunits⟩ := exists_wide x hx
  obtain ⟨t, b, hb, l, hl, rfl, hwide', hltb, hltl, hunits'⟩ := exists_wide y hy
  rw [hwide, hwide']
  simp only [add, hlta.ne, hltb.ne, hltk.ne, hltl.ne, if_false]
  rw [signedUnits_number_mul s a k _ ha hk hunits, signedUnits_number_mul t b l _ hb hl hunits',
    ← add_mul]
  have hkeeps := keepsSides_sum _ _ a b (natAbs_signedUnits s a ha) (natAbs_signedUnits t b hb)
  have hpow : (0 : ℤ) < (2 ^ wideningShift : ℕ) := by exact_mod_cast Nat.two_pow_pos _
  generalize (number s a ha).signedUnits + (number t b hb).signedUnits = sum at hkeeps ⊢
  by_cases hzero : sum = 0
  · rw [if_pos (by rw [hzero, zero_mul]), if_pos hzero, zero, zero, convert_number, ofRatio,
      number.injEq, units_zero, zero_mul]
    exact ⟨rfl, single.nearest_zero _⟩
  · have hsign : decide (sum * (2 ^ wideningShift : ℕ) < 0) = decide (sum < 0) := by
      rw [decide_eq_decide, mul_neg_iff]
      omega
    rw [if_neg (mul_ne_zero hzero hpow.ne'), if_neg hzero, hsign, Int.natAbs_mul,
      Int.natAbs_natCast]
    exact convert_ofRatio _ _ 1 _ 1 Nat.one_pos Nat.one_pos rfl hkeeps

/-- **Differences in double precision are narrowed to differences in single precision.** -/
theorem convert_sub (x y : Single) (hx : x.isFinite = true) (hy : y.isFinite = true) :
    (((x.convert : Double).sub y.convert).convert : Single) = x.sub y := by
  rw [sub, sub, ← convert_neg]
  exact convert_add x y.neg hx (by rw [isFinite_neg, hy])

/-- **Products in double precision are narrowed to products in single precision.** -/
theorem convert_mul (x y : Single) (hx : x.isFinite = true) (hy : y.isFinite = true) :
    (((x.convert : Double).mul y.convert).convert : Single) = x.mul y := by
  obtain ⟨s, a, ha, k, hk, rfl, hwide, hlta, hltk, hunits⟩ := exists_wide x hx
  obtain ⟨t, b, hb, l, hl, rfl, hwide', hltb, hltl, hunits'⟩ := exists_wide y hy
  rw [hwide, hwide']
  simp only [mul, hlta.ne, hltb.ne, hltk.ne, hltl.ne, or_self, if_false, two_pow_scale]
  rw [hunits, hunits']
  refine convert_ofRatio _ _ _ _ _ (Nat.two_pow_pos _) (Nat.two_pow_pos _) ?_
    (keepsSides_product a b)
  rw [two_pow_double_scale]
  ring

/-- **Quotients in double precision are narrowed to quotients in single precision.** -/
theorem convert_div (x y : Single) (hx : x.isFinite = true) (hy : y.isFinite = true)
    (hzero : y.isZero = false) :
    (((x.convert : Double).div y.convert).convert : Single) = x.div y := by
  obtain ⟨s, a, ha, k, hk, rfl, hwide, hlta, hltk, hunits⟩ := exists_wide x hx
  obtain ⟨t, b, hb, l, hl, rfl, hwide', hltb, hltl, hunits'⟩ := exists_wide y hy
  have hb0 : b ≠ 0 := by simpa [isZero] using hzero
  have hl0 := code_ne_zero_of_units b l _ hunits' hb0 (Nat.two_pow_pos _)
  have hpos : 0 < single.units b := units_pos b hb0
  rw [hwide, hwide']
  simp only [div, hlta.ne, hltb.ne, hltk.ne, hltl.ne, hb0, hl0, if_false, two_pow_scale]
  rw [hunits, hunits']
  refine convert_ofRatio _ _ _ _ _ hpos (Nat.mul_pos hpos (Nat.two_pow_pos _)) ?_
    (keepsSides_quotient a b hpos)
  rw [two_pow_double_scale]
  ring

/-- **Remainders in double precision are narrowed to remainders in single precision.** -/
theorem convert_rem (x y : Single) (hx : x.isFinite = true) (hy : y.isFinite = true)
    (hzero : y.isZero = false) :
    (((x.convert : Double).rem y.convert).convert : Single) = x.rem y := by
  obtain ⟨s, a, ha, k, hk, rfl, hwide, hlta, hltk, hunits⟩ := exists_wide x hx
  obtain ⟨t, b, hb, l, hl, rfl, hwide', hltb, hltl, hunits'⟩ := exists_wide y hy
  have hb0 : b ≠ 0 := by simpa [isZero] using hzero
  have hl0 := code_ne_zero_of_units b l _ hunits' hb0 (Nat.two_pow_pos _)
  have hpos : 0 < single.units b := units_pos b hb0
  obtain ⟨r, hr, -⟩ := single.exists_units_mod a b hpos
  rw [hwide, hwide']
  simp only [rem, hlta.ne, hltb.ne, hltk.ne, hltl.ne, hb0, hl0, or_self, if_false]
  rw [hunits, hunits', Nat.mul_mod_mul_right, ← hr]
  exact convert_ofRatio _ _ 1 _ 1 Nat.one_pos Nat.one_pos rfl (keepsSides_units r)

/-- A rounding of a value that is a magnitude is exact. -/
theorem IsRounded.exact {f : Format} (hf : f.Regular) {x : Binary f} {num : ℤ} (c : ℕ)
    (hx : x.IsRounded num 1) (hc : c < f.infinity) (hnum : num.natAbs = f.units c) :
    x.isFinite = true ∧ x.signedUnits = num := by
  have hcode : f.nearest num.natAbs 1 = c := by
    rw [hnum]
    simpa using f.nearest_units hf c 1 Nat.one_pos hc.le
  constructor
  · obtain ⟨s, rfl, -⟩ := hx
    rw [ofRatio, isFinite, hcode]
    exact decide_eq_true hc
  · rcases le_total 0 num with hnonneg | hnonpos
    · rw [hx.signedUnits_of_nonneg hnonneg, hcode]
      omega
    · rw [hx.signedUnits_of_nonpos hnonpos, hcode]
      omega

/-- **Remainders are exact**: they are finite and have the value of the exact remainder. -/
theorem rem_exact {f : Format} (hf : f.Regular) (x y : Binary f) (hx : x.isFinite = true)
    (hy : y.isFinite = true) (hzero : y.isZero = false) :
    (x.rem y).isFinite = true ∧
      (x.rem y).value = Operation.mod.onRationals x.value y.value := by
  have hrounded := x.rem_isRounded y hx hy hzero
  obtain ⟨s, a, ha, rfl, hlta⟩ := exists_number_of_isFinite x hx
  obtain ⟨t, b, hb, rfl, hltb⟩ := exists_number_of_isFinite y hy
  have hb0 : b ≠ 0 := by simpa [isZero] using hzero
  obtain ⟨r, hr, hle⟩ := f.exists_units_mod a b (units_pos b hb0)
  obtain ⟨hfinite, hunits⟩ := hrounded.exact hf r (by omega)
    (by rw [Int.natAbs_tmod, natAbs_signedUnits, natAbs_signedUnits, hr])
  refine ⟨hfinite, ?_⟩
  rw [value, hunits]
  exact tmod_eq_onRationals _ _ ((signedUnits_eq_zero_iff t b hb).not.2 hb0)

end Binary

namespace Operation

/-- **Each operation in double precision is narrowed to the operation in single precision**, unless
it divides by zero. -/
theorem convert_onDoubles (op : Operation) (x y : Single) (hx : x.isFinite = true)
    (hy : y.isFinite = true) (hdiv : op.divides = true → y.isZero = false) :
    ((op.onDoubles x.convert y.convert).convert : Single) = op.onBinaries x y := by
  cases op with
  | add => exact Binary.convert_add x y hx hy
  | sub => exact Binary.convert_sub x y hx hy
  | mul => exact Binary.convert_mul x y hx hy
  | div => exact Binary.convert_div x y hx hy (hdiv rfl)
  | mod => exact Binary.convert_rem x y hx hy (hdiv rfl)

end Operation

namespace Operand

/-- What comes of a single that has been computed: the operand if it is finite, and otherwise the
fault of its side. -/
inductive Returned (v : Single) : Except OperandFault Operand → Prop
  | finite (h : v.isFinite = true) : Returned v (.ok (.float v))
  | overflow (text : String) (h : v = Binary.infinite false) :
      Returned v (.error (.overflow .float text))
  | underflow (text : String) (h : v = Binary.infinite true) :
      Returned v (.error (.underflow .float text))

/-- **Narrowing a double gives the single that it is converted to**, or the fault of its side. -/
theorem returned_ofWide (x : Double) (hx : x.isNan = false) :
    Returned x.convert (ofWide .float x) := by
  cases x with
  | nan => cases hx
  | number s c h =>
    by_cases hfinite : ((Binary.number s c h : Double).convert : Single).isFinite = true
    · rw [ofWide, (boundsFault?_float_iff _).2 hfinite]
      exact .finite hfinite
    · have hinfinite := Binary.convert_eq_infinite s c h hfinite
      rw [ofWide, boundsFault?_float_of_infinite _ s hinfinite]
      cases s with
      | false => exact .overflow _ hinfinite
      | true => exact .underflow _ hinfinite

end Operand

/-- **Arithmetic on singles is single-precision arithmetic.** The operation is carried out in double
precision and the result narrowed, but what comes out is the exact result rounded once to single
precision: the operand if it is finite, an overflow if it is positive infinity and an underflow if
it is negative infinity. A remainder is exact, hence always finite. -/
theorem Operation.apply_float_rounds_once (op : Operation) (x y : Single) (hx : x.isFinite = true)
    (hy : y.isFinite = true) (hdiv : op.divides = true → y.value ≠ 0) :
    (op.onBinaries x y).Rounds (op.onRationals x.value y.value) ∧
      Operand.Returned (op.onBinaries x y) (op.apply (.float x) (.float y)) ∧
      (op = .mod → (op.onBinaries x y).isFinite = true ∧
        (op.onBinaries x y).value = op.onRationals x.value y.value) := by
  have hzero : op.divides = true → y.isZero = false := by
    intro h
    rw [← Bool.not_eq_true, ← y.value_eq_zero_iff hy]
    exact hdiv h
  refine ⟨?_, ?_, ?_⟩
  · obtain ⟨num, den, hden, hrounded, hexact⟩ := Binary.onBinaries_isRounded op x y hx hy hzero
    rw [← hexact]
    exact hrounded.rounds Format.single_regular hden
  · have haccepted : ¬ (op.divides && (Operand.float y).isZero) = true := by
      rw [Bool.and_eq_true, (Operand.float y).isZero_iff hy]
      exact fun h => hdiv h.1 h.2
    obtain ⟨num, den, -, hrounded, -⟩ := op.onDoubles_isRounded (.float x) (.float y) hx hy
      (fun h => hdiv h.1 h.2)
    rw [apply, if_neg haccepted, ← op.convert_onDoubles x y hx hy hzero]
    exact Operand.returned_ofWide _ hrounded.isNan_eq_false
  · rintro rfl
    exact Binary.rem_exact Format.single_regular x y hx hy (hzero rfl)

/-- Ties at both ends of the range: one and a half units are two units, and half a step beyond the
least single is negative infinity. -/
theorem Operation.apply_float_rounds_once_ties :
    let three : Single := .number false 3 (by decide)
    let two : Single := .number false (128 * 2 ^ 23) (by decide)
    let least : Single := Binary.largest true
    let half : Single := .number true (230 * 2 ^ 23) (by decide)
    (three.isFinite = true ∧ two.isFinite = true ∧ two.value ≠ 0 ∧
      (div.onBinaries three two).Rounds (div.onRationals three.value two.value) ∧
      div.apply (.float three) (.float two) = .ok (.float (.number false 2 (by decide)))) ∧
    least.isFinite = true ∧ half.isFinite = true ∧
      (add.onBinaries least half).Rounds (add.onRationals least.value half.value) ∧
      ∃ text, add.apply (.float least) (.float half) = .error (.underflow .float text) := by
  intro three two least half
  have hthree : three.isFinite = true := by decide +kernel
  have htwo : two.isFinite = true := by decide +kernel
  have hleast : least.isFinite = true := by decide +kernel
  have hhalf : half.isFinite = true := by decide +kernel
  have hdivisor : two.value ≠ 0 := (two.value_eq_zero_iff htwo).not.2 (by decide +kernel)
  obtain ⟨hquotient, hreturned, -⟩ :=
    apply_float_rounds_once .div three two hthree htwo fun _ => hdivisor
  obtain ⟨hsum, hreturned', -⟩ :=
    apply_float_rounds_once .add least half hleast hhalf fun h => absurd h Bool.false_ne_true
  have htie : div.onBinaries three two = .number false 2 (by decide) := by decide +kernel
  have htie' : add.onBinaries least half = .infinite true := by decide +kernel
  refine ⟨⟨hthree, htwo, hdivisor, hquotient, ?_⟩, hleast, hhalf, hsum, ?_⟩
  · rw [htie] at hreturned
    generalize div.apply (.float three) (.float two) = result at hreturned ⊢
    cases hreturned with
    | finite => rfl
    | overflow text h => cases h
    | underflow text h => cases h
  · rw [htie'] at hreturned'
    generalize add.apply (.float least) (.float half) = result at hreturned' ⊢
    cases hreturned' with
    | finite h => exact absurd h (Binary.not_isFinite_infinite true)
    | overflow text h => cases h
    | underflow text h => exact ⟨text, rfl⟩

end NumStack
