import Mathlib.Data.List.TakeWhile
import NumStack.Proofs.FiniteOperands
import NumStack.Proofs.Shortest

/-!
# Literals

The text of a decimal is read back to the same decimal, places included. The text of a finite
operand is such a text, with a sign where the operand is negative, and the literal denotes the
operand again: integers are exact, and a shortest decimal rounds to the number it was chosen for.
For single precision the bounds check looks at the decimal rounded twice, first to a double; the
decimals ascend with the codes, so it is enough that the greatest one passes.
-/

namespace NumStack

namespace Decimal

/-! ## The text of a decimal -/

theorem ne_point_of_isDigit (c : Char) (h : c.isDigit = true) : (c != '.') = true := by
  rw [bne_iff_ne]
  rintro rfl
  cases h

theorem isDigit_of_mem_toDigits (n : Nat) : ∀ c ∈ Nat.toDigits 10 n, c.isDigit = true := by
  intro c hc
  exact Nat.isDigit_of_mem_toDigits (by decide) (by decide) hc

/-- Digits padded to a number of places: as many digits as places, and the value behind what stands
in front. -/
theorem leftpad_toDigits (m k : Nat) (hk : 0 < k) (hm : m < 10 ^ k) :
    ((Nat.toDigits 10 m).leftpad k '0').length = k ∧
      (∀ c ∈ (Nat.toDigits 10 m).leftpad k '0', c.isDigit = true) ∧
      ∀ init, Nat.ofDigitChars 10 ((Nat.toDigits 10 m).leftpad k '0') init =
        init * 10 ^ k + m := by
  have hlen : (Nat.toDigits 10 m).length ≤ k := (Nat.length_toDigits_le_iff (by decide) hk).2 hm
  refine ⟨?_, ?_, ?_⟩
  · rw [List.length_leftpad]
    omega
  · intro c hc
    rw [List.leftpad, List.mem_append] at hc
    rcases hc with hc | hc
    · rw [List.eq_of_mem_replicate hc]
      rfl
    · exact isDigit_of_mem_toDigits m c hc
  · intro init
    rw [List.leftpad, Nat.ofDigitChars_append, Nat.ofDigitChars_replicate_zero,
      Nat.ofDigitChars_eq_ofDigitChars_zero, Nat.ofDigitChars_ten_toDigits, ← mul_assoc, ← pow_add,
      Nat.add_sub_cancel' hlen, mul_comm]

/-- The text of a decimal, with the powers of its places. -/
theorem text_eq (d : Decimal) :
    d.text = Nat.toDigits 10 (d.numerator / 10 ^ d.places) ++
      if d.places = 0 then []
      else '.' :: (Nat.toDigits 10 (d.numerator % 10 ^ d.places)).leftpad d.places '0' := rfl

theorem text_of_places_eq_zero (n : Nat) : (Decimal.mk n 0).text = Nat.toDigits 10 n := by
  simp [text_eq]

/-- The text of a decimal with places is its whole part, a point, and a digit for each place. -/
theorem exists_text_eq (d : Decimal) (hd : d.places ≠ 0) :
    ∃ fraction, d.text = Nat.toDigits 10 (d.numerator / 10 ^ d.places) ++ '.' :: fraction ∧
      fraction.length = d.places ∧ (∀ c ∈ fraction, c.isDigit = true) ∧
      ∀ init, Nat.ofDigitChars 10 fraction init =
        init * 10 ^ d.places + d.numerator % 10 ^ d.places := by
  have hlt : d.numerator % 10 ^ d.places < 10 ^ d.places := Nat.mod_lt _ (by positivity)
  refine ⟨_, ?_, leftpad_toDigits _ d.places (Nat.pos_of_ne_zero hd) hlt⟩
  rw [text_eq, if_neg hd]

theorem isDigits_of_forall (cs : List Char) (hne : cs ≠ []) (h : ∀ c ∈ cs, c.isDigit = true) :
    isDigits cs = true := by
  simp only [isDigits, Bool.and_eq_true, Bool.not_eq_true', List.isEmpty_eq_false_iff,
    List.all_eq_true]
  exact ⟨hne, h⟩

theorem ofUnsigned?_digits (whole : List Char) (hne : whole ≠ [])
    (h : ∀ c ∈ whole, c.isDigit = true) :
    ofUnsigned? whole = some ⟨Nat.ofDigitChars 10 whole 0, 0⟩ := by
  have hpoint : ∀ c ∈ whole, (c != '.') = true := fun c hc => ne_point_of_isDigit c (h c hc)
  rw [ofUnsigned?, List.dropWhile_eq_nil_iff.2 hpoint, List.takeWhile_eq_self_iff.2 hpoint]
  simp only [isDigits_of_forall whole hne h, if_true]

/-- Digits around a point are read as the number of all of them, with a place for each digit behind
the point. -/
theorem ofUnsigned?_point (whole fraction : List Char) (hne : whole ≠ [])
    (h : ∀ c ∈ whole, c.isDigit = true) (hne' : fraction ≠ [])
    (h' : ∀ c ∈ fraction, c.isDigit = true) :
    ofUnsigned? (whole ++ '.' :: fraction) =
      some ⟨Nat.ofDigitChars 10 (whole ++ fraction) 0, fraction.length⟩ := by
  have hpoint : ∀ c ∈ whole, (c != '.') = true := fun c hc => ne_point_of_isDigit c (h c hc)
  have htake : (whole ++ '.' :: fraction).takeWhile (· != '.') = whole := by
    rw [List.takeWhile_append_of_pos hpoint]
    simp
  have hdrop : (whole ++ '.' :: fraction).dropWhile (· != '.') = '.' :: fraction := by
    rw [List.dropWhile_append_of_pos hpoint]
    simp
  rw [ofUnsigned?, hdrop, htake]
  simp only [isDigits_of_forall whole hne h, isDigits_of_forall fraction hne' h', Bool.and_self,
    if_true]

/-- **Round trip.** The text of a decimal is read as that decimal. -/
theorem ofUnsigned?_text (d : Decimal) : ofUnsigned? d.text = some d := by
  obtain ⟨n, k⟩ := d
  by_cases hk : k = 0
  · subst hk
    rw [text_of_places_eq_zero,
      ofUnsigned?_digits _ Nat.toDigits_ne_nil (isDigit_of_mem_toDigits n),
      Nat.ofDigitChars_ten_toDigits]
  · obtain ⟨fraction, htext, hlen, hfraction, hvalue⟩ := exists_text_eq ⟨n, k⟩ hk
    have hne : fraction ≠ [] := List.ne_nil_of_length_pos (by simp only at hlen; omega)
    rw [htext, ofUnsigned?_point _ fraction Nat.toDigits_ne_nil (isDigit_of_mem_toDigits _) hne
      hfraction, Nat.ofDigitChars_append, Nat.ofDigitChars_ten_toDigits, hvalue, hlen]
    dsimp only
    rw [Nat.div_add_mod']

theorem exists_text_cons (d : Decimal) : ∃ c cs, d.text = c :: cs ∧ c.isDigit = true := by
  obtain ⟨c, cs, hcs⟩ := List.exists_cons_of_ne_nil
    (Nat.toDigits_ne_nil (n := d.numerator / 10 ^ d.places) (b := 10))
  have hdigit := isDigit_of_mem_toDigits (d.numerator / 10 ^ d.places) c (by simp [hcs])
  rw [text_eq, hcs]
  exact ⟨c, _, rfl, hdigit⟩

theorem splitSign_of_isDigit (c : Char) (cs : List Char) (h : c.isDigit = true) :
    splitSign (c :: cs) = (false, c :: cs) := by
  unfold splitSign
  split
  · rename_i heq
    cases heq
    cases h
  · rename_i heq
    cases heq
    cases h
  · rfl

/-- **Round trip.** A decimal with a sign in front is read as that sign and decimal. -/
theorem ofLiteral?_sign_text (negative : Bool) (d : Decimal) :
    ofLiteral? ((if negative then ['-'] else []) ++ d.text) = some (negative, d) := by
  have hsplit : splitSign ((if negative then ['-'] else []) ++ d.text) = (negative, d.text) := by
    cases negative with
    | true => rfl
    | false =>
      obtain ⟨c, cs, hcs, hdigit⟩ := d.exists_text_cons
      show splitSign d.text = _
      rw [hcs, splitSign_of_isDigit c cs hdigit]
  rw [ofLiteral?, hsplit, ofUnsigned?_text]
  rfl

end Decimal

namespace Binary

/-! ## Shortest decimals of single precision as doubles -/

/-- A number of a smaller code converts to a finite number if one of a greater code does. -/
theorem isFinite_convert_of_code_le {f g : Format} (hg : g.Regular) (s s' : Bool) (c c' : Nat)
    (h : c ≤ f.infinity) (h' : c' ≤ f.infinity) (hle : c ≤ c')
    (hfinite : ((number s' c' h').convert : Binary g).isFinite = true) :
    ((number s c h).convert : Binary g).isFinite = true := by
  have hlt : c' < f.infinity := by
    rcases Nat.lt_or_eq_of_le h' with hlt | rfl
    · exact hlt
    · simp [convert, infinite, isFinite] at hfinite
  rw [convert_of_lt s' c' h' hlt, ofRatio, isFinite, decide_eq_true_iff] at hfinite
  rw [convert_of_lt s c h (by omega), ofRatio, isFinite, decide_eq_true_iff]
  refine Nat.lt_of_le_of_lt ?_ hfinite
  apply g.nearest_mono hg _ _ _ _ (Nat.two_pow_pos _) (Nat.two_pow_pos _)
  gcongr
  exact f.units_strictMono.monotone hle

/-- The shortest decimal of the greatest single is above it, and still rounds to it from the nearest
double. -/
theorem isFinite_convert_shortest_largest :
    ((ofDecimal false (Format.single.shortest (Format.single.infinity - 1)) : Double).convert :
      Single).isFinite = true := by
  decide +kernel

/-- **The shortest decimal of a finite single rounds to a finite single from the nearest double**,
though not always to the same one. -/
theorem isFinite_convert_shortest (s : Bool) (c : Nat) (hc : c < Format.single.infinity) :
    ((ofDecimal s (Format.single.shortest c) : Double).convert : Single).isFinite = true := by
  have hlargest := isFinite_convert_shortest_largest
  rw [ofDecimal_eq, ofRatio] at hlargest ⊢
  refine isFinite_convert_of_code_le Format.single_regular _ _ _ _ _ _ ?_ hlargest
  -- a smaller code has a smaller decimal, and both roundings are monotone
  have hmono := Format.single.shortest_mono c (Format.single.infinity - 1) (by omega)
  apply Format.double.nearest_mono Format.double_regular _ _ _ _ (by positivity) (by positivity)
  rw [mul_right_comm, mul_right_comm _ (2 ^ Format.double.scale)]
  exact Nat.mul_le_mul_right _ hmono

end Binary

namespace Operand

/-! ## The literals of operands -/

/-- A literal written as a sign and a decimal denotes the operand nearest to them, if that is within
the bounds of the kind; for an integer kind the decimal has no places. -/
theorem ofLiteral_of_decimal (k : Kind) (negative : Bool) (d : Decimal) (text : String)
    (htext : text.toList = (if negative then ['-'] else []) ++ d.text)
    (hk : k.isInteger = true → d.places = 0)
    (hbounds : boundsFault? k (Binary.ofDecimal negative d) = none) :
    ofLiteral k text = .ok (ofDecimal k negative d) := by
  have hpoint : ¬ (k.isInteger && text.toList.contains '.') = true := by
    rw [Bool.and_eq_true, List.contains_iff_mem, htext]
    rintro ⟨hinteger, hmem⟩
    obtain ⟨n, places⟩ := d
    obtain rfl : places = 0 := hk hinteger
    rw [Decimal.text_of_places_eq_zero, List.mem_append] at hmem
    rcases hmem with hmem | hmem
    · cases negative <;> simp at hmem
    · cases Decimal.isDigit_of_mem_toDigits n '.' hmem
  rw [ofLiteral, htext, Decimal.ofLiteral?_sign_text]
  rw [htext] at hpoint
  simp only [if_neg hpoint, hbounds]

/-- The operand is written as the signed decimal, and its kind takes the decimal back. -/
structure WrittenAs (v : Operand) (negative : Bool) (d : Decimal) : Prop where
  chars_eq : v.chars = (if negative then ['-'] else []) ++ d.text
  places_eq : v.kind.isInteger = true → d.places = 0
  boundsFault?_eq : boundsFault? v.kind (Binary.ofDecimal negative d) = none
  ofDecimal_eq : ofDecimal v.kind negative d = v

theorem writtenAs_of_int? (v : Operand) (n : Int) (hn : v.int? = some n) :
    v.WrittenAs (decide (n < 0)) ⟨n.natAbs, 0⟩ := by
  obtain ⟨hbounds, hnarrow⟩ := narrow_ofInt v n hn
  have hchars : v.chars = integerText n := by
    cases v <;> cases hn <;> rfl
  have hvalue : ofDecimal v.kind (decide (n < 0)) ⟨n.natAbs, 0⟩ = v := by
    rw [← hnarrow]
    cases v <;> cases hn <;> rfl
  refine ⟨?_, fun _ => rfl, hbounds, hvalue⟩
  rw [hchars, integerText, Decimal.text_of_places_eq_zero]
  simp only [decide_eq_true_eq]

/-- **Every finite operand is written as a signed decimal.** -/
theorem exists_decimal (v : Operand) (hv : v.isFinite = true) :
    ∃ negative d, v.WrittenAs negative d := by
  cases v with
  | int8 n => exact ⟨_, _, writtenAs_of_int? _ n.toInt rfl⟩
  | int16 n => exact ⟨_, _, writtenAs_of_int? _ n.toInt rfl⟩
  | int32 n => exact ⟨_, _, writtenAs_of_int? _ n.toInt rfl⟩
  | float x =>
    obtain ⟨s, c, h, rfl, hc⟩ := Binary.exists_number_of_isFinite x hv
    refine ⟨s, Format.single.shortest c, ?_, (fun hk => by cases hk), ?_, ?_⟩
    · simp only [chars, Binary.chars, if_neg hc.ne]
    · exact (boundsFault?_float_iff _).2 (Binary.isFinite_convert_shortest s c hc)
    · exact congrArg float (Binary.ofDecimal_shortest Format.single_regular s c h hc)
  | double x =>
    obtain ⟨s, c, h, rfl, hc⟩ := Binary.exists_number_of_isFinite x hv
    have hround := Binary.ofDecimal_shortest Format.double_regular s c h hc
    refine ⟨s, Format.double.shortest c, ?_, (fun hk => by cases hk), ?_, ?_⟩
    · simp only [chars, Binary.chars, if_neg hc.ne]
    · rw [hround]
      exact (boundsFault?_double_iff _).2 hv
    · exact congrArg double hround

/-- **Round trip.** The text of a finite operand denotes that operand. -/
theorem ofLiteral_text (v : Operand) (hv : v.isFinite = true) :
    ofLiteral v.kind v.text = .ok v := by
  obtain ⟨negative, d, hd⟩ := exists_decimal v hv
  have htext : v.text.toList = (if negative then ['-'] else []) ++ d.text := by
    rw [text, String.toList_ofList, hd.chars_eq]
  rw [ofLiteral_of_decimal v.kind negative d v.text htext hd.places_eq hd.boundsFault?_eq,
    hd.ofDecimal_eq]

end Operand

end NumStack
