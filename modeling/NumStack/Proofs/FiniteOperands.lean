import NumStack.Proofs.IntegerKinds

/-!
# Finite operands

Single precision embeds in double precision, so widening a number loses nothing. The bounds of the
two floating-point kinds are their greatest finite magnitudes: exactly the finite numbers pass the
bounds check. Hence an operand passes the check of its own kind exactly if it is finite, and comes
out of it unchanged.
-/

namespace NumStack

namespace Format

/-! ## Single precision in double precision -/

/-- **Widening is exact.** Every finite magnitude of single precision is one of double precision. -/
theorem exists_double_units (c : Nat) (hc : c < single.infinity) :
    ∃ k, k < double.infinity ∧
      double.units k * 2 ^ single.scale = single.units c * 2 ^ double.scale := by
  obtain ⟨m, s, rfl, hm, hlt⟩ := single.exists_significand c
  have hsingle : single.binade = 8388608 := by decide
  have hdouble : double.binade = 4503599627370496 := by decide
  have hs : s < 255 := by
    have hinf : single.infinity = 255 * single.binade := by decide
    rw [hinf] at hc
    exact Nat.lt_of_mul_lt_mul_right (a := single.binade) (by omega)
  -- a unit of single precision is `2 ^ 925` units of double precision
  obtain ⟨k, hk, hle⟩ := double.exists_units_eq m (s + 925) (by omega)
  refine ⟨k, ?_, ?_⟩
  · have hinf : double.infinity = 2047 * double.binade := by decide
    rw [hinf]
    rw [hdouble] at hle ⊢
    omega
  · have hscale : double.scale = 925 + single.scale := by decide
    rw [hk, single.units_add_mul m s hm (by omega), hscale, mul_assoc, mul_assoc, ← pow_add,
      ← pow_add, Nat.add_assoc]

end Format

namespace Binary

theorem convert_of_lt {f g : Format} (s : Bool) (c : Nat) (h : c ≤ f.infinity)
    (hc : c < f.infinity) :
    ((number s c h).convert : Binary g) = ofRatio s (f.units c * 2 ^ g.scale) (2 ^ f.scale) := by
  rw [convert, if_neg hc.ne]
  rfl

/-- The wide code of a finite single-precision number keeps its magnitude. -/
theorem units_nearest_wide (c : Nat) (hc : c < Format.single.infinity) :
    Format.double.nearest (Format.single.units c * 2 ^ Format.double.scale)
        (2 ^ Format.single.scale) < Format.double.infinity ∧
      Format.double.units (Format.double.nearest
          (Format.single.units c * 2 ^ Format.double.scale) (2 ^ Format.single.scale)) *
        2 ^ Format.single.scale = Format.single.units c * 2 ^ Format.double.scale := by
  obtain ⟨k, hk, hunits⟩ := Format.exists_double_units c hc
  have hcode := Format.double.nearest_units Format.double_regular k (2 ^ Format.single.scale)
    (Nat.two_pow_pos _) hk.le
  rw [hunits] at hcode
  rw [hcode]
  exact ⟨hk, hunits⟩

/-- **A number widened and narrowed again is the same number.** -/
theorem convert_convert (x : Single) : ((x.convert : Double).convert : Single) = x := by
  cases x with
  | nan => rfl
  | number s c h =>
    by_cases hc : c = Format.single.infinity
    · subst hc
      simp only [convert, if_true, infinite]
    · obtain ⟨hlt, hunits⟩ := units_nearest_wide c (by omega)
      rw [convert_of_lt s c h (by omega), ofRatio, convert_of_lt s _ _ hlt, hunits, ofRatio]
      congr
      exact Format.single.nearest_units Format.single_regular c _ (Nat.two_pow_pos _) h

/-! ## Comparison with the greatest magnitude -/

variable {f : Format}

theorem isFinite_iff (x : Binary f) :
    x.isFinite = true ↔ ∃ s c h, x = number s c h ∧ c < f.infinity := by
  constructor
  · exact exists_number_of_isFinite x
  · rintro ⟨s, c, h, rfl, hc⟩
    exact decide_eq_true hc

/-- A number is between the two numbers of a code exactly if its own code is not greater. -/
theorem between_iff (x : Binary f) (m : Nat) (hm : m ≤ f.infinity) :
    (x.isNan = false ∧ (number false m hm).less x = false ∧ x.less (number true m hm) = false) ↔
      ∃ s c h, x = number s c h ∧ c ≤ m := by
  cases x with
  | nan => simp [isNan]
  | number s c h =>
    constructor
    · rintro ⟨-, hupper, hlower⟩
      refine ⟨s, c, h, rfl, ?_⟩
      cases s <;> simp [less, key] at hupper hlower <;> omega
    · rintro ⟨s', c', h', heq, hle⟩
      cases heq
      refine ⟨rfl, ?_, ?_⟩ <;> cases s <;> simp [less, key] <;> omega

end Binary

namespace Operand

/-! ## The bounds check of the floating-point kinds -/

/-- What it takes to be within the bounds of a kind. -/
theorem boundsFault?_eq_none_iff (k : Kind) (x y : Double)
    (hy : y = if k = .float then (x.convert : Single).convert else x) :
    boundsFault? k x = none ↔
      y.isNan = false ∧ k.greatest.less y = false ∧ y.less k.least = false := by
  unfold boundsFault?
  rw [← hy]
  dsimp only
  by_cases hnan : y.isNan = true
  · simp [hnan]
  · by_cases hupper : k.greatest.less y = true
    · simp [hnan, hupper]
    · by_cases hlower : y.less k.least = true <;> simp [hnan, hupper, hlower]

/-- Exactly the finite doubles are within the bounds of double precision. -/
theorem boundsFault?_double_iff (x : Double) :
    boundsFault? .double x = none ↔ x.isFinite = true := by
  have hpos : 0 < Format.double.infinity := by decide
  rw [boundsFault?_eq_none_iff .double x x rfl, Binary.isFinite_iff]
  refine (Binary.between_iff x (Format.double.infinity - 1) (Nat.sub_le _ _)).trans ?_
  constructor
  · rintro ⟨s, c, h, rfl, hle⟩
    exact ⟨s, c, h, rfl, by omega⟩
  · rintro ⟨s, c, h, rfl, hlt⟩
    exact ⟨s, c, h, rfl, by omega⟩

/-- Exactly the doubles that round to a finite single are within the bounds of single precision. -/
theorem boundsFault?_float_iff (x : Double) :
    boundsFault? .float x = none ↔ (x.convert : Single).isFinite = true := by
  have hpos : Format.single.infinity - 1 < Format.single.infinity := by decide
  have hbound : ∀ s, ((Binary.largest s : Single).convert : Double) = Binary.ofRatio s
      (Format.single.units (Format.single.infinity - 1) * 2 ^ Format.double.scale)
      (2 ^ Format.single.scale) := fun s => Binary.convert_of_lt s _ _ hpos
  obtain ⟨hlt, -⟩ := Binary.units_nearest_wide _ hpos
  rw [boundsFault?_eq_none_iff .float x _ (if_pos rfl).symm, Kind.greatest, Kind.least, hbound,
    hbound, Binary.ofRatio, Binary.ofRatio, Binary.between_iff, Binary.isFinite_iff]
  generalize (x.convert : Single) = z
  constructor
  · rintro ⟨s, c, h, heq, hle⟩
    cases z with
    | nan => cases heq
    | number s' c' h' =>
      refine ⟨s', c', h', rfl, ?_⟩
      -- infinity stays infinity, which is beyond every finite code
      rcases Nat.lt_or_eq_of_le h' with hlt' | rfl
      · exact hlt'
      · rw [Binary.convert, if_pos rfl, Binary.infinite] at heq
        cases heq
        omega
  · rintro ⟨s, c, h, rfl, hc⟩
    rw [Binary.convert_of_lt s c h hc]
    refine ⟨s, _, _, rfl, Format.double.nearest_mono Format.double_regular _ _ _ _
      (Nat.two_pow_pos _) (Nat.two_pow_pos _) ?_⟩
    gcongr
    exact Format.single.units_strictMono.monotone (by omega)

/-! ## Checked operands -/

/-- Whether an operand is an integer or a finite number. -/
def isFinite : Operand → Bool
  | int8 _ | int16 _ | int32 _ => true
  | float x => x.isFinite
  | double x => x.isFinite

/-- Operands of one kind that hold the same integer are equal. -/
theorem eq_of_int? (v w : Operand) (n : Int) (hk : v.kind = w.kind) (hv : v.int? = some n)
    (hw : w.int? = some n) : v = w := by
  have heq : v.int? = w.int? := hv.trans hw.symm
  cases v with
  | int8 m =>
    cases w with
    | int8 m' => exact congrArg int8 (Int8.toInt_inj.1 (Option.some.inj heq))
    | _ => cases hk
  | int16 m =>
    cases w with
    | int16 m' => exact congrArg int16 (Int16.toInt_inj.1 (Option.some.inj heq))
    | _ => cases hk
  | int32 m =>
    cases w with
    | int32 m' => exact congrArg int32 (Int32.toInt_inj.1 (Option.some.inj heq))
    | _ => cases hk
  | float x => cases hv
  | double x => cases hv

/-- An integer operand is what its kind narrows the integer to. -/
theorem narrow_ofInt (v : Operand) (n : Int) (h : v.int? = some n) :
    boundsFault? v.kind (Binary.ofInt n) = none ∧ narrow v.kind (Binary.ofInt n) = v := by
  obtain ⟨hk, hlow, hup⟩ := v.range_of_int? n h
  obtain ⟨hrange, -, -⟩ := v.kind.range_of_isInteger hk
  have hbound := (bound_natAbs_le v.kind hk).1
  have htrunc : (Binary.ofInt n : Double).truncate = n := by
    have hdiv := (Binary.ofInt_isRounded n).truncate_eq_tdiv Format.double_regular n 1 Nat.one_pos
      (by omega)
    rwa [Nat.cast_one, Int.tdiv_one] at hdiv
  constructor
  · have hexact := (Binary.ofInt_exact Format.double_regular n (by omega)).2
    have hpow : (0 : Int) ≤ 2 ^ Format.double.scale := by positivity
    rw [boundsFault?_integer v.kind hk _ rfl, hexact, if_neg, if_neg]
    · exact not_lt.2 (mul_le_mul_of_nonneg_right hlow hpow)
    · exact not_lt.2 (mul_le_mul_of_nonneg_right hup hpow)
  · obtain ⟨hkind, hint⟩ := narrow_of_range v.kind hk (Binary.ofInt n) (by rwa [htrunc])
      (by rwa [htrunc])
    exact eq_of_int? _ v n hkind (by rw [hint, htrunc]) h

/-- **Checking.** A finite operand is within the bounds of its kind and is left as it is. -/
theorem checked_of_isFinite (v : Operand) (h : v.isFinite = true) : v.checked = .ok v := by
  have hinteger : ∀ n, v.int? = some n → v.checked = .ok v := by
    intro n hn
    obtain ⟨hbounds, hnarrow⟩ := narrow_ofInt v n hn
    rw [checked, ofWide, v.wide_of_int? n hn, hbounds, hnarrow]
  cases v with
  | int8 n => exact hinteger n.toInt rfl
  | int16 n => exact hinteger n.toInt rfl
  | int32 n => exact hinteger n.toInt rfl
  | float x =>
    have hbounds : boundsFault? .float (x.convert : Double) = none := by
      rw [boundsFault?_float_iff, Binary.convert_convert]
      exact h
    rw [checked, ofWide, kind, wide, hbounds, narrow, Binary.convert_convert]
  | double x =>
    have hbounds : boundsFault? .double x = none := (boundsFault?_double_iff x).2 h
    rw [checked, ofWide, kind, wide, hbounds, narrow]

/-- **Checking.** Only finite operands are within the bounds of their kind. -/
theorem isFinite_of_checked (v w : Operand) (h : v.checked = .ok w) : v.isFinite = true := by
  have hbounds : boundsFault? v.kind v.wide = none := by
    rw [checked, ofWide] at h
    split at h
    · cases h
    · assumption
  cases v with
  | int8 n | int16 n | int32 n => rfl
  | float x =>
    have hfinite := (boundsFault?_float_iff (x.convert : Double)).1 hbounds
    rwa [Binary.convert_convert] at hfinite
  | double x => exact (boundsFault?_double_iff x).1 hbounds

/-- **Checking.** The check accepts exactly the finite operands, and gives them back. -/
theorem checked_eq_ok_iff (v w : Operand) : v.checked = .ok w ↔ v.isFinite = true ∧ w = v := by
  constructor
  · intro h
    have hfinite := isFinite_of_checked v w h
    rw [checked_of_isFinite v hfinite] at h
    cases h
    exact ⟨hfinite, rfl⟩
  · rintro ⟨hfinite, rfl⟩
    exact checked_of_isFinite w hfinite

/-- **Narrowing.** A double within the bounds of a kind narrows to a finite operand of that kind:
what the bounds check has seen is what the narrowing gives. -/
theorem finite_of_ofWide (k : Kind) (x : Double) (v : Operand) (h : ofWide k x = .ok v) :
    v.kind = k ∧ v.isFinite = true := by
  rw [ofWide] at h
  split at h
  · cases h
  · rename_i hbounds
    cases h
    cases k with
    | int8 | int16 | int32 => exact ⟨rfl, rfl⟩
    | float => exact ⟨rfl, (boundsFault?_float_iff x).1 hbounds⟩
    | double => exact ⟨rfl, (boundsFault?_double_iff x).1 hbounds⟩

end Operand

end NumStack
