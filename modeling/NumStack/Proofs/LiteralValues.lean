import NumStack.Proofs.IntegerArith
import NumStack.Proofs.LiteralDenotation

/-!
# The values of literals

A literal of an integer kind denotes its integer, however many digits it has: the double on the way
is exact in the range of the kind and stays outside where the integer is outside. A literal of
single precision denotes its value rounded once. The bounds check, however, sees the value rounded
twice, and refuses the literals between `checkLimit` and `overflowLimit`, whose value rounds to the
greatest finite single.
-/

namespace NumStack

/-! ## Integers -/

namespace Literal

variable (l : Literal)

/-- The integer that a literal without a fraction denotes. -/
def integer : Int := if l.negative then -(l.whole.value : Int) else l.whole.value

/-- A literal without a fraction is rounded from its integer. The rounding of zero keeps the minus
that may stand in front of it. -/
theorem ofDecimal_isRounded {f : Format} (hl : l.fraction? = none) :
    (Binary.ofDecimal l.negative l.decimal : Binary f).IsRounded (l.integer * 2 ^ f.scale) 1 := by
  have hdecimal : l.decimal = ⟨l.whole.value, 0⟩ := by
    unfold decimal
    rw [hl]
  rw [hdecimal, Binary.ofDecimal_eq, pow_zero]
  by_cases hzero : l.whole.value = 0
  · have hinteger : l.integer = 0 := by
      unfold integer
      rw [hzero]
      simp
    rw [hinteger, hzero, zero_mul, zero_mul]
    exact ⟨l.negative, rfl, fun h => absurd rfl h⟩
  · have hnat : l.integer.natAbs = l.whole.value := by
      unfold integer
      split <;> omega
    have hsign : l.negative = decide (l.integer < 0) := by
      unfold integer
      cases l.negative with
      | true => simp [Nat.pos_of_ne_zero hzero]
      | false => simp
    rw [hsign, ← hnat]
    exact Binary.ofInt_isRounded l.integer

end Literal

namespace Operand

/-- **A literal of an integer kind is checked exactly.** -/
theorem ofLiteral_isExact (k : Kind) (hk : k.isInteger = true) (l : Literal)
    (hl : l.fraction? = none) : IsExact k l.integer (ofLiteral k l.text) := by
  have hexact := ofWide_isExact_of_whole k hk _ l.integer (l.ofDecimal_isRounded hl)
  have hvalue : ofDecimal k l.negative l.decimal =
      narrow k (Binary.ofDecimal l.negative l.decimal) := by
    cases k with
    | int8 | int16 | int32 => rfl
    | float => cases hk
    | double => cases hk
  rw [ofWide] at hexact
  rw [ofLiteral_of_literal k l fun _ => hl, hvalue]
  cases hbounds : boundsFault? k (Binary.ofDecimal l.negative l.decimal) with
  | none =>
    rw [hbounds] at hexact
    exact hexact
  | some side =>
    -- the two faults show different texts, and being exact looks at neither
    rw [hbounds] at hexact
    obtain rfl | rfl := boundsFault?_eq_some k _ side hbounds
    · obtain ⟨-, hgt⟩ := hexact
      exact ⟨rfl, hgt⟩
    · obtain ⟨-, hlt⟩ := hexact
      exact ⟨rfl, hlt⟩

/-- A literal out of range is shown as it is written. -/
theorem exists_shown_iff (k : Kind) (text : String) :
    ((∃ shown, ofLiteral k text = .error (.overflow k shown)) ↔
        ofLiteral k text = .error (.overflow k text)) ∧
      ((∃ shown, ofLiteral k text = .error (.underflow k shown)) ↔
        ofLiteral k text = .error (.underflow k text)) := by
  have hread := ofLiteral_reading k text
  refine ⟨⟨?_, fun h => ⟨text, h⟩⟩, ⟨?_, fun h => ⟨text, h⟩⟩⟩
  · rintro ⟨shown, h⟩
    rw [h] at hread ⊢
    cases hread
    rfl
  · rintro ⟨shown, h⟩
    rw [h] at hread ⊢
    cases hread
    rfl

end Operand

/-- **Literals of integer kinds are exact at any length.** A literal without a fraction denotes its
integer exactly if the kind holds it; otherwise it is out of range on the side on which the integer
is, and the fault shows the literal as it is written. -/
theorem Literal.ofLiteral_integer (l : Literal) (hl : l.fraction? = none) (k : Kind)
    (hk : k.isInteger = true) :
    ((∃ v, Operand.ofLiteral k l.text = .ok v ∧ v.kind = k ∧ v.int? = some l.integer) ↔
        k.lower ≤ l.integer ∧ l.integer ≤ k.upper) ∧
      (Operand.ofLiteral k l.text = .error (.overflow k l.text) ↔ k.upper < l.integer) ∧
      (Operand.ofLiteral k l.text = .error (.underflow k l.text) ↔ l.integer < k.lower) := by
  obtain ⟨hdenotes, hoverflow, hunderflow⟩ :=
    (Operand.ofLiteral_isExact k hk l hl).outcome_iff k l.integer _ hk
  obtain ⟨hover, hunder⟩ := Operand.exists_shown_iff k l.text
  exact ⟨hdenotes, hover.symm.trans hoverflow, hunder.symm.trans hunderflow⟩

/-- The least integer of eight bits behind leading zeros, and an integer beyond all doubles. -/
theorem Literal.ofLiteral_integer_extremes :
    let least : Literal :=
      ⟨some .minus, ⟨['0', '0', '1', '2', '8'], by simp, List.all_eq_true.1 rfl⟩, none⟩
    let vast : Literal := ⟨none, .ofNat (10 ^ 400), none⟩
    least.text = "-00128" ∧ least.fraction? = none ∧ vast.fraction? = none ∧
      Kind.int8.isInteger = true ∧
      (∃ v, Operand.ofLiteral .int8 least.text = .ok v ∧ v.kind = .int8 ∧ v.int? = some (-128)) ∧
      Operand.ofLiteral .int8 vast.text = .error (.overflow .int8 vast.text) := by
  intro least vast
  have hleast : least.integer = -128 := by decide +kernel
  have hvast : vast.integer = (10 ^ 400 : Nat) := congrArg Nat.cast (Digits.value_ofNat (10 ^ 400))
  refine ⟨by decide +kernel, rfl, rfl, rfl, ?_, ?_⟩
  · rw [← hleast]
    exact (ofLiteral_integer least rfl .int8 rfl).1.2 (by rw [hleast]; decide)
  · exact (ofLiteral_integer vast rfl .int8 rfl).2.1.2 (by rw [hvast]; decide +kernel)

/-! ## Single precision -/

/-- The fault of a value beyond the bounds of a kind, on the side of its sign. -/
def OperandFault.beyond (kind : Kind) (negative : Bool) : String → OperandFault :=
  if negative then underflow kind else overflow kind

namespace Binary

theorem not_isFinite_infinite {f : Format} (s : Bool) :
    ¬ (infinite s : Binary f).isFinite = true := by
  simp [infinite, isFinite]

/-- A number that is converted to no finite one is converted to the infinity of its sign. -/
theorem convert_eq_infinite {f g : Format} (s : Bool) (c : Nat) (h : c ≤ f.infinity)
    (hnot : ¬ ((number s c h).convert : Binary g).isFinite = true) :
    ((number s c h).convert : Binary g) = infinite s := by
  rcases Nat.lt_or_eq_of_le h with hlt | rfl
  · rw [convert_of_lt s c h hlt, ofRatio, isFinite, decide_eq_true_iff, not_lt] at hnot
    rw [convert_of_lt s c h hlt, ofRatio, infinite]
    congr
    exact le_antisymm (g.nearest_le_infinity _ _) hnot
  · rw [convert, if_pos rfl]

end Binary

namespace Operand

/-- A double that is converted to an infinite single is beyond the bounds of single precision. -/
theorem boundsFault?_float_of_infinite (x : Double) (s : Bool)
    (h : (x.convert : Single) = Binary.infinite s) :
    boundsFault? .float x = some (.beyond .float s) := by
  have hconvert : ((Binary.infinite s : Single).convert : Double) = Binary.infinite s := by
    rw [Binary.infinite, Binary.convert, if_pos rfl]
  have hgreatest : (Kind.float.greatest).less (Binary.infinite s) = !s := by
    cases s <;> decide +kernel
  have hleast : (Binary.infinite s).less Kind.float.least = s := by
    cases s <;> decide +kernel
  unfold boundsFault?
  simp only [if_true, h, hconvert, hgreatest, hleast]
  cases s <;> rfl

/-- **The bounds check of a decimal in single precision** takes the decimals below `checkLimit`. -/
theorem boundsFault?_float_decimal (s : Bool) (d : Decimal) :
    boundsFault? .float (Binary.ofDecimal s d) =
      if d.value < checkLimit then none else some (.beyond .float s) := by
  have hfinite := Binary.isFinite_convert_decimal_iff s d
  split
  · rename_i hlt
    exact (boundsFault?_float_iff _).2 (hfinite.2 hlt)
  · rename_i hge
    refine boundsFault?_float_of_infinite _ s (Binary.convert_eq_infinite s _ _ ?_)
    exact fun h => hge (hfinite.1 h)

end Operand

namespace Literal

/-- The value of a literal, rounded once to single precision. -/
def single (l : Literal) : Single := Binary.ofDecimal l.negative l.decimal

/-- The value of a literal has one rounding to nearest, ties to even. -/
theorem isNearestEven_iff_eq_single (l : Literal) (x : Single) :
    x.IsNearestEven l.negative l.magnitude ↔ x = l.single := by
  rw [← value_decimal]
  exact Binary.isNearestEven_decimal_iff Format.single_regular x _ _

/-- The value of a literal is rounded to a finite single below `overflowLimit`. -/
theorem isFinite_single (l : Literal) :
    l.single.isFinite = true ↔ l.magnitude < overflowLimit := by
  rw [← value_decimal]
  exact Binary.isFinite_single_iff l.negative l.decimal

/-- **A literal of single precision denotes its value rounded once**, if that is below
`checkLimit`. -/
theorem ofLiteral_float (l : Literal) :
    Operand.ofLiteral .float l.text =
      if l.magnitude < checkLimit then .ok (.float l.single)
      else .error (.beyond .float l.negative l.text) := by
  rw [Operand.ofLiteral_of_literal .float l (fun h => by cases h),
    Operand.boundsFault?_float_decimal, value_decimal]
  split <;> rfl

/-- What is expected of a literal of single precision whose value is rounded to `v`: it denotes `v`
if `v` is finite, and else is out of range on the side on which `v` is infinite. -/
structure DenotesRounded (l : Literal) (v : Single) : Prop where
  finite : v.isFinite = true → Operand.ofLiteral .float l.text = .ok (.float v)
  overflow : v = Binary.infinite false →
    Operand.ofLiteral .float l.text = .error (.overflow .float l.text)
  underflow : v = Binary.infinite true →
    Operand.ofLiteral .float l.text = .error (.underflow .float l.text)

/-- Below the limit of the check, a literal denotes its rounded value, which is finite. -/
theorem denotesRounded_of_lt (l : Literal) (h : l.magnitude < checkLimit) :
    l.DenotesRounded l.single := by
  have hfinite := l.isFinite_single.2 (lt_trans h checkLimit_lt_overflowLimit)
  refine ⟨fun _ => ?_, fun hinfinite => ?_, fun hinfinite => ?_⟩
  · rw [ofLiteral_float, if_pos h]
  · rw [hinfinite] at hfinite
    exact absurd hfinite (Binary.not_isFinite_infinite false)
  · rw [hinfinite] at hfinite
    exact absurd hfinite (Binary.not_isFinite_infinite true)

/-- From the overflow of single precision on, a literal is out of range on the side of its sign. -/
theorem denotesRounded_of_ge (l : Literal) (h : overflowLimit ≤ l.magnitude) :
    l.DenotesRounded l.single := by
  have hread := l.ofLiteral_float
  rw [if_neg (not_lt.2 (le_trans checkLimit_lt_overflowLimit.le h))] at hread
  refine ⟨fun hfinite => ?_, fun hinfinite => ?_, fun hinfinite => ?_⟩
  · exact absurd (l.isFinite_single.1 hfinite) (not_lt.2 h)
  · have hsign : l.negative = false := (Binary.number.inj hinfinite).1
    rw [hread, hsign]
    rfl
  · have hsign : l.negative = true := (Binary.number.inj hinfinite).1
    rw [hread, hsign]
    rfl

/-- In between, the rounded value of a literal is finite, and the literal is refused. -/
theorem not_denotesRounded_of_between (l : Literal) (h : checkLimit ≤ l.magnitude)
    (h' : l.magnitude < overflowLimit) : ¬ l.DenotesRounded l.single := by
  intro hdenotes
  have hok := hdenotes.finite (l.isFinite_single.2 h')
  rw [ofLiteral_float, if_neg (not_lt.2 h)] at hok
  cases hok

/-- **Literals of single precision are rounded once and checked twice rounded.** One number is the
value of a literal rounded to nearest, ties to even. The literal denotes it below `checkLimit` and
is refused from there on, so the literal meets what is expected exactly if it is not between
`checkLimit` and `overflowLimit`, where its rounded value is still finite. -/
theorem denotesRounded_iff (l : Literal) :
    ∃ v : Single, (∀ x : Single, x.IsNearestEven l.negative l.magnitude ↔ x = v) ∧
      (l.DenotesRounded v ↔ l.magnitude < checkLimit ∨ overflowLimit ≤ l.magnitude) ∧
      (v.isFinite = true ↔ l.magnitude < overflowLimit) ∧
      Operand.ofLiteral .float l.text =
        if l.magnitude < checkLimit then .ok (.float v)
        else .error (.beyond .float l.negative l.text) := by
  refine ⟨l.single, l.isNearestEven_iff_eq_single, ⟨fun hdenotes => ?_, ?_⟩, l.isFinite_single,
    l.ofLiteral_float⟩
  · by_contra hbetween
    push Not at hbetween
    exact l.not_denotesRounded_of_between hbetween.1 hbetween.2 hdenotes
  · rintro (hbelow | habove)
    · exact l.denotesRounded_of_lt hbelow
    · exact l.denotesRounded_of_ge habove

/-- One below the overflow of single precision: the value rounds to the greatest single, and the
literal is refused as an overflow. -/
theorem not_denotesRounded_below_overflow :
    let digits := "340282356779733661637539395458142568447"
    let l : Literal := ⟨none, .ofNat (2 ^ 128 - 2 ^ 103 - 1), none⟩
    l.text = digits ∧ (Binary.largest false : Single).IsNearestEven l.negative l.magnitude ∧
      (Binary.largest false : Single).isFinite = true ∧
      Operand.ofLiteral .float digits = .error (.overflow .float digits) ∧
      ¬ l.DenotesRounded (Binary.largest false) := by
  intro digits l
  have htext : l.text = digits := by decide +kernel
  have hfinite : (Binary.largest false : Single).isFinite = true := by decide +kernel
  have hrefused : Operand.ofLiteral .float digits = .error (.overflow .float digits) := by
    decide +kernel
  refine ⟨htext, ?_, hfinite, hrefused, ?_⟩
  · rw [isNearestEven_iff_eq_single]
    decide +kernel
  · intro h
    have hok := h.finite hfinite
    rw [htext, hrefused] at hok
    cases hok

end Literal

end NumStack
