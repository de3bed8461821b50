import NumStack.Proofs.LiteralGrammar
import NumStack.Proofs.SingleOverflow

/-!
# What literals denote

A text is no literal of a kind if it is not of the grammar, or has a point that the kind does not
take; otherwise the bounds of the kind decide. `Operand.Reading` lists what can come of a text. What
a literal denotes is valid, although the bounds are checked on the literal rounded to a double and a
single is rounded from the literal itself: the operands that literals denote are exactly the
operands that pass their check.
-/

namespace NumStack

namespace Operand

/-! ## Literals of a kind -/

/-- A double out of bounds is out of bounds on one side. -/
theorem boundsFault?_eq_some (k : Kind) (x : Double) (fault : String → OperandFault)
    (h : boundsFault? k x = some fault) : fault = .overflow k ∨ fault = .underflow k := by
  unfold boundsFault? at h
  generalize (if k = .float then (x.convert : Single).convert else x) = y at h
  dsimp only at h
  split at h
  · exact .inl (Option.some.inj h).symm
  · split at h
    · exact .inr (Option.some.inj h).symm
    · cases h

theorem ofLiteral_of_not_literal (k : Kind) (text : String) (h : ¬ ∃ l : Literal, l.text = text) :
    ofLiteral k text = .error (.invalidLiteral k text) := by
  rw [ofLiteral, (Literal.ofLiteral?_eq_none_iff text).2 h]

theorem ofLiteral_of_fraction (k : Kind) (hk : k.isInteger = true) (l : Literal)
    (hl : l.fraction? ≠ none) : ofLiteral k l.text = .error (.invalidLiteral k l.text) := by
  have hpoint : (k.isInteger && l.chars.contains '.') = true := by
    rw [hk, Bool.true_and, List.contains_iff_mem]
    exact l.point_mem_chars_iff.2 hl
  rw [ofLiteral, Literal.text, String.toList_ofList, l.ofLiteral?_chars]
  simp only [hpoint, if_true]

/-- **A literal that its kind takes is checked against the bounds** and then denotes the operand
nearest to its value. -/
theorem ofLiteral_of_literal (k : Kind) (l : Literal)
    (hl : k.isInteger = true → l.fraction? = none) :
    ofLiteral k l.text =
      (boundsFault? k (Binary.ofDecimal l.negative l.decimal)).elim
        (.ok (ofDecimal k l.negative l.decimal)) fun fault => .error (fault l.text) := by
  have hpoint : ¬ (k.isInteger && l.chars.contains '.') = true := by
    rw [Bool.and_eq_true, List.contains_iff_mem, l.point_mem_chars_iff]
    rintro ⟨hk, hfraction⟩
    exact hfraction (hl hk)
  rw [ofLiteral, Literal.text, String.toList_ofList, l.ofLiteral?_chars]
  simp only [if_neg hpoint]
  cases boundsFault? k (Binary.ofDecimal l.negative l.decimal) <;> rfl

/-- What a text can give as a literal of a kind. -/
inductive Reading (k : Kind) (text : String) : Except OperandFault Operand → Prop where
  | refused (h : (¬ ∃ l : Literal, l.text = text) ∨ (k.isInteger = true ∧ '.' ∈ text.toList)) :
      Reading k text (.error (.invalidLiteral k text))
  | denotes (l : Literal) (htext : l.text = text) (hl : k.isInteger = true → l.fraction? = none)
      (h : boundsFault? k (Binary.ofDecimal l.negative l.decimal) = none) :
      Reading k text (.ok (ofDecimal k l.negative l.decimal))
  | overflow (l : Literal) (htext : l.text = text) (hl : k.isInteger = true → l.fraction? = none)
      (h : boundsFault? k (Binary.ofDecimal l.negative l.decimal) = some (.overflow k)) :
      Reading k text (.error (.overflow k text))
  | underflow (l : Literal) (htext : l.text = text) (hl : k.isInteger = true → l.fraction? = none)
      (h : boundsFault? k (Binary.ofDecimal l.negative l.decimal) = some (.underflow k)) :
      Reading k text (.error (.underflow k text))

/-- **Every text is read in one of these ways.** -/
theorem ofLiteral_reading (k : Kind) (text : String) : Reading k text (ofLiteral k text) := by
  by_cases hliteral : ∃ l : Literal, l.text = text
  · obtain ⟨l, rfl⟩ := hliteral
    by_cases hfraction : k.isInteger = true ∧ l.fraction? ≠ none
    · rw [ofLiteral_of_fraction k hfraction.1 l hfraction.2]
      refine .refused (.inr ⟨hfraction.1, ?_⟩)
      rw [Literal.text, String.toList_ofList]
      exact l.point_mem_chars_iff.2 hfraction.2
    · have hl : k.isInteger = true → l.fraction? = none := fun hk =>
        not_not.1 fun h => hfraction ⟨hk, h⟩
      rw [ofLiteral_of_literal k l hl]
      cases hbounds : boundsFault? k (Binary.ofDecimal l.negative l.decimal) with
      | none => exact .denotes l rfl hl hbounds
      | some side =>
        obtain rfl | rfl := boundsFault?_eq_some k _ side hbounds
        · exact .overflow l rfl hl hbounds
        · exact .underflow l rfl hl hbounds
  · rw [ofLiteral_of_not_literal k text hliteral]
    exact .refused (.inl hliteral)

/-! ## Valid operands -/

/-- **A literal denotes a finite operand of its kind.** For single precision the check sees the
literal rounded twice, which hides no overflow. -/
theorem finite_of_ofLiteral (k : Kind) (text : String) (v : Operand)
    (h : ofLiteral k text = .ok v) : v.kind = k ∧ v.isFinite = true := by
  have hread := ofLiteral_reading k text
  rw [h] at hread
  cases hread with
  | denotes l htext hl hbounds =>
    cases k with
    | int8 | int16 | int32 => exact ⟨rfl, rfl⟩
    | float => exact ⟨rfl, Binary.isFinite_of_convert _ _ ((boundsFault?_float_iff _).1 hbounds)⟩
    | double => exact ⟨rfl, (boundsFault?_double_iff _).1 hbounds⟩

/-- A literal is refused as such exactly outside the grammar of its kind. -/
theorem ofLiteral_eq_invalidLiteral_iff (k k' : Kind) (text text' : String) :
    ofLiteral k text = .error (.invalidLiteral k' text') ↔
      k' = k ∧ text' = text ∧
        ((¬ ∃ l : Literal, l.text = text) ∨ (k.isInteger = true ∧ '.' ∈ text.toList)) := by
  constructor
  · intro h
    have hread := ofLiteral_reading k text
    rw [h] at hread
    cases hread with
    | refused hwhy => exact ⟨rfl, rfl, hwhy⟩
  · rintro ⟨rfl, rfl, hnot | ⟨hk, hpoint⟩⟩
    · exact ofLiteral_of_not_literal k' text' hnot
    · by_cases hliteral : ∃ l : Literal, l.text = text'
      · obtain ⟨l, rfl⟩ := hliteral
        rw [Literal.text, String.toList_ofList, l.point_mem_chars_iff] at hpoint
        exact ofLiteral_of_fraction k' hk l hpoint
      · exact ofLiteral_of_not_literal k' text' hliteral

/-- **Literals denote exactly the valid operands of their kind.** An operand is denoted by some
literal of a kind exactly if it is of that kind and passes its check unchanged. A text is refused as
a literal, with its kind and itself in the fault, exactly if it is not of the grammar or has a point
that an integer kind does not take. -/
theorem ofLiteral_denotes_valid (k : Kind) :
    (∀ v, (∃ text, ofLiteral k text = .ok v) ↔ v.kind = k ∧ v.checked = .ok v) ∧
      ∀ text k' text', ofLiteral k text = .error (.invalidLiteral k' text') ↔
        k' = k ∧ text' = text ∧
          ((¬ ∃ l : Literal, l.text = text) ∨ (k.isInteger = true ∧ '.' ∈ text.toList)) := by
  refine ⟨fun v => ⟨?_, ?_⟩, fun text k' text' => ofLiteral_eq_invalidLiteral_iff k k' text text'⟩
  · rintro ⟨text, h⟩
    obtain ⟨hkind, hfinite⟩ := finite_of_ofLiteral k text v h
    exact ⟨hkind, v.checked_of_isFinite hfinite⟩
  · rintro ⟨rfl, hchecked⟩
    exact ⟨v.text, ofLiteral_text v (isFinite_of_checked v v hchecked)⟩

end Operand

end NumStack
