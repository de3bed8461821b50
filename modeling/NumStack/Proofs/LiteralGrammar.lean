import NumStack.Proofs.Literals
import NumStack.Proofs.NearestEven

/-!
# The grammar of literals

A literal is an optional sign, digits, and possibly a point and more digits:

    [+-]?[0-9]+(\.[0-9]+)?

`Literal` holds these parts, so that its texts are the texts of the grammar and no others. Its value
is that of the positional notation, an exact rational number. A text is read exactly if it is the
text of a literal, and then as the sign and the value of the literal.
-/

namespace NumStack

/-! ## The parts of a literal -/

/-- One or more decimal digits. -/
structure Digits where
  chars : List Char
  ne_nil : chars ≠ []
  isDigit : ∀ c ∈ chars, c.isDigit = true

namespace Digits

/-- The whole number that digits denote. -/
def value (ds : Digits) : Nat := Nat.ofDigitChars 10 ds.chars 0

/-- The digits of a whole number. -/
def ofNat (n : Nat) : Digits :=
  ⟨Nat.toDigits 10 n, Nat.toDigits_ne_nil, Decimal.isDigit_of_mem_toDigits n⟩

theorem value_ofNat (n : Nat) : (ofNat n).value = n :=
  Nat.ofDigitChars_ten_toDigits

end Digits

/-- A sign. -/
inductive Sign where
  | plus
  | minus
  deriving DecidableEq

/-- The character of a sign. -/
def Sign.char : Sign → Char
  | plus => '+'
  | minus => '-'

/-- A literal in its parts: a sign that may be left out, digits, and digits behind a point, which
may be left out too. -/
structure Literal where
  sign? : Option Sign
  whole : Digits
  fraction? : Option Digits

namespace Literal

variable (l : Literal)

/-- The text behind the sign. -/
def unsigned : List Char :=
  l.whole.chars ++ match l.fraction? with
    | none => []
    | some ds => '.' :: ds.chars

/-- The characters of a literal. -/
def chars : List Char := (l.sign?.map Sign.char).toList ++ l.unsigned

/-- The text of a literal. -/
def text : String := String.ofList l.chars

/-- Whether the sign is a minus, also that of a zero. -/
def negative : Bool := l.sign? = some .minus

/-- The value of a literal without its sign: a digit behind the point counts a tenth of what it
would count one place further left. -/
def magnitude : ℚ :=
  l.whole.value + match l.fraction? with
    | none => 0
    | some ds => ds.value / 10 ^ ds.chars.length

/-- The decimal fraction that a literal is read as. -/
def decimal : Decimal :=
  match l.fraction? with
  | none => ⟨l.whole.value, 0⟩
  | some ds => ⟨Nat.ofDigitChars 10 (l.whole.chars ++ ds.chars) 0, ds.chars.length⟩

/-- **The decimal fraction has the value of the literal.** -/
theorem value_decimal : l.decimal.value = l.magnitude := by
  unfold decimal magnitude Decimal.value Digits.value
  cases l.fraction? with
  | none => simp
  | some ds =>
    dsimp only
    rw [Nat.ofDigitChars_append, Nat.ofDigitChars_eq_ofDigitChars_zero]
    push_cast
    field_simp

/-- A point stands in a literal only in front of a fraction. -/
theorem point_mem_chars_iff : '.' ∈ l.chars ↔ l.fraction? ≠ none := by
  have hwhole : '.' ∉ l.whole.chars := by
    intro h
    cases l.whole.isDigit '.' h
  have hsign : '.' ∉ (l.sign?.map Sign.char).toList := by
    rcases l.sign? with _ | _ | _ <;> simp [Sign.char]
  unfold chars unsigned
  cases l.fraction? <;> simp [hwhole, hsign]

/-! ## Literals are read -/

/-- The text behind the sign is read as the decimal fraction. -/
theorem ofUnsigned?_unsigned : Decimal.ofUnsigned? l.unsigned = some l.decimal := by
  unfold unsigned decimal
  cases l.fraction? with
  | none =>
    dsimp only
    rw [List.append_nil, Decimal.ofUnsigned?_digits _ l.whole.ne_nil l.whole.isDigit]
    rfl
  | some ds =>
    exact Decimal.ofUnsigned?_point _ _ l.whole.ne_nil l.whole.isDigit ds.ne_nil ds.isDigit

theorem splitSign_chars : Decimal.splitSign l.chars = (l.negative, l.unsigned) := by
  unfold chars negative
  cases l.sign? with
  | some s => cases s <;> rfl
  | none =>
    obtain ⟨c, cs, hcs⟩ := List.exists_cons_of_ne_nil l.whole.ne_nil
    have hdigit := l.whole.isDigit c (by simp [hcs])
    unfold unsigned
    rw [hcs]
    exact Decimal.splitSign_of_isDigit c _ hdigit

/-- **A literal is read as its sign and its decimal fraction.** -/
theorem ofLiteral?_chars : Decimal.ofLiteral? l.chars = some (l.negative, l.decimal) := by
  rw [Decimal.ofLiteral?, splitSign_chars, ofUnsigned?_unsigned]
  rfl

/-! ## Nothing else is read -/

theorem exists_digits (cs : List Char) (h : Decimal.isDigits cs = true) :
    ∃ ds : Digits, ds.chars = cs := by
  simp only [Decimal.isDigits, Bool.and_eq_true, Bool.not_eq_true', List.isEmpty_eq_false_iff,
    List.all_eq_true] at h
  exact ⟨⟨cs, h.1, h.2⟩, rfl⟩

/-- What is read without a sign is digits, and possibly a point and more digits. -/
theorem exists_unsigned (cs : List Char) (d : Decimal) (h : Decimal.ofUnsigned? cs = some d)
    (sign? : Option Sign) : ∃ l : Literal, l.sign? = sign? ∧ l.unsigned = cs := by
  have hsplit := List.takeWhile_append_dropWhile (p := (· != '.')) (l := cs)
  unfold Decimal.ofUnsigned? at h
  dsimp only at h
  split at h
  · rename_i hdrop
    split at h
    · rename_i hwhole
      obtain ⟨whole, heq⟩ := exists_digits _ hwhole
      rw [hdrop, ← heq, List.append_nil] at hsplit
      exact ⟨⟨sign?, whole, none⟩, rfl, by rw [← hsplit]; exact List.append_nil _⟩
    · cases h
  · rename_i c fraction hdrop
    split at h
    · rename_i hdigits
      obtain ⟨hwhole, hfraction⟩ := Bool.and_eq_true_iff.1 hdigits
      obtain ⟨whole, heq⟩ := exists_digits _ hwhole
      obtain ⟨ds, rfl⟩ := exists_digits _ hfraction
      -- what stops the run of other characters is a point
      have hpoint : c = '.' := by
        have hstop := List.head?_dropWhile_not (· != '.') cs
        rw [hdrop] at hstop
        simpa using hstop
      rw [hdrop, ← heq, hpoint] at hsplit
      exact ⟨⟨sign?, whole, some ds⟩, rfl, hsplit⟩
    · cases h

/-- **What is read is a literal.** -/
theorem exists_chars_eq (cs : List Char) (h : (Decimal.ofLiteral? cs).isSome = true) :
    ∃ l : Literal, l.chars = cs := by
  obtain ⟨⟨negative, d⟩, hread⟩ := Option.isSome_iff_exists.1 h
  obtain ⟨d', hd, -⟩ := Option.map_eq_some_iff.1 hread
  unfold Decimal.splitSign at hd
  split at hd
  · obtain ⟨l, hsign, rfl⟩ := exists_unsigned _ d' hd (some .minus)
    exact ⟨l, by rw [chars, hsign]; rfl⟩
  · obtain ⟨l, hsign, rfl⟩ := exists_unsigned _ d' hd (some .plus)
    exact ⟨l, by rw [chars, hsign]; rfl⟩
  · obtain ⟨l, hsign, rfl⟩ := exists_unsigned _ d' hd none
    exact ⟨l, by rw [chars, hsign]; rfl⟩

/-- **A text is refused exactly if it is no literal.** -/
theorem ofLiteral?_eq_none_iff (text : String) :
    Decimal.ofLiteral? text.toList = none ↔ ¬ ∃ l : Literal, l.text = text := by
  constructor
  · rintro hnone ⟨l, rfl⟩
    rw [Literal.text, String.toList_ofList, ofLiteral?_chars] at hnone
    cases hnone
  · intro hnot
    cases hread : Decimal.ofLiteral? text.toList with
    | none => rfl
    | some r =>
      obtain ⟨l, hl⟩ := exists_chars_eq text.toList (by rw [hread]; rfl)
      exact absurd ⟨l, by rw [Literal.text, hl, String.ofList_toList]⟩ hnot

end Literal

end NumStack
