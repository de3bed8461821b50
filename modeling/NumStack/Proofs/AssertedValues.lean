import NumStack.Binary.Bits
import NumStack.Proofs.Calls
import NumStack.Proofs.Literals

/-!
# Asserted values

An assertion compares kinds and texts. The text of a finite operand is a literal of its kind that
denotes the operand, so no two finite operands of one kind have one text. On a machine that has been
used through calls all values on the stack are finite, and an assertion therefore compares the
stored bits. The two zeros of a floating-point kind are different values for it.
-/

namespace NumStack

namespace Binary

variable {f : Format}

/-! ## Bit patterns -/

/-- The code of a number leaves the sign bit free. -/
theorem infinity_lt_signWeight (f : Format) : f.infinity < signWeight f := by
  have hpow : 0 < 2 ^ f.exponentBits := Nat.two_pow_pos _
  have hbinade := f.binade_pos
  show (2 ^ f.exponentBits - 1) * f.binade < 2 ^ (f.exponentBits + f.fractionBits)
  rw [pow_add]
  exact Nat.mul_lt_mul_of_pos_right (Nat.sub_lt hpow Nat.one_pos) hbinade

/-- **A number is found again by its bit pattern.** -/
theorem ofBits_of_toBits? (x : Binary f) (bits : Nat) (h : x.toBits? = some bits) :
    ofBits bits = x := by
  have hinfinity := infinity_lt_signWeight f
  cases x with
  | nan => cases h
  | number s c hc =>
    have hlt : c < signWeight f := lt_of_le_of_lt hc hinfinity
    have hpos : 0 < signWeight f := Nat.zero_lt_of_lt hlt
    cases s with
    | false =>
      obtain rfl : c = bits := Option.some.inj h
      simp [ofBits, Nat.mod_eq_of_lt hlt, Nat.div_eq_of_lt hlt, hc]
    | true =>
      obtain rfl : signWeight f + c = bits := Option.some.inj h
      simp [ofBits, Nat.mod_eq_of_lt hlt, Nat.add_div_left c hpos, Nat.div_eq_of_lt hlt, hc]

theorem exists_toBits? (x : Binary f) (hx : x.isFinite = true) : ∃ bits, x.toBits? = some bits := by
  obtain ⟨s, c, h, rfl, -⟩ := exists_number_of_isFinite x hx
  exact ⟨_, rfl⟩

/-- A finite number has its bit pattern for itself. -/
theorem eq_of_toBits? (x y : Binary f) (hx : x.isFinite = true) (h : x.toBits? = y.toBits?) :
    x = y := by
  obtain ⟨bits, hbits⟩ := x.exists_toBits? hx
  rw [← ofBits_of_toBits? x bits hbits, ofBits_of_toBits? y bits (h.symm.trans hbits)]

end Binary

namespace Operand

/-- The bits that hold an operand; `nan` has no pattern of its own. -/
def bits? : Operand → Option Nat
  | int8 n => some n.toBitVec.toNat
  | int16 n => some n.toBitVec.toNat
  | int32 n => some n.toBitVec.toNat
  | float x => x.toBits?
  | double x => x.toBits?

/-- **Kind and bits determine a finite operand.** -/
theorem eq_of_bits? (v w : Operand) (hv : v.isFinite = true) (hkind : v.kind = w.kind)
    (h : v.bits? = w.bits?) : v = w := by
  cases v with
  | int8 n =>
    cases w with
    | int8 n' =>
      exact congrArg int8 (Int8.toBitVec_inj.1 (BitVec.eq_of_toNat_eq (Option.some.inj h)))
    | _ => cases hkind
  | int16 n =>
    cases w with
    | int16 n' =>
      exact congrArg int16 (Int16.toBitVec_inj.1 (BitVec.eq_of_toNat_eq (Option.some.inj h)))
    | _ => cases hkind
  | int32 n =>
    cases w with
    | int32 n' =>
      exact congrArg int32 (Int32.toBitVec_inj.1 (BitVec.eq_of_toNat_eq (Option.some.inj h)))
    | _ => cases hkind
  | float x =>
    cases w with
    | float y => exact congrArg float (x.eq_of_toBits? y hv h)
    | _ => cases hkind
  | double x =>
    cases w with
    | double y => exact congrArg double (x.eq_of_toBits? y hv h)
    | _ => cases hkind

/-- **Kind and text determine a finite operand**: both operands are what the text denotes. -/
theorem eq_of_text (v w : Operand) (hv : v.isFinite = true) (hw : w.isFinite = true)
    (hkind : v.kind = w.kind) (h : v.text = w.text) : v = w := by
  have hread := ofLiteral_text v hv
  rw [hkind, h, ofLiteral_text w hw] at hread
  exact (Except.ok.inj hread).symm

end Operand

/-- Two finite operands agree exactly if they are the same. -/
theorem Instruction.agrees_iff (v w : Operand) (hv : v.isFinite = true) (hw : w.isFinite = true) :
    agrees v w = true ↔ v = w := by
  rw [agrees, Bool.and_eq_true, decide_eq_true_eq, decide_eq_true_eq]
  constructor
  · rintro ⟨hkind, htext⟩
    exact v.eq_of_text w hv hw hkind htext
  · rintro rfl
    exact ⟨rfl, rfl⟩

namespace Machine

variable {σ : Type} [Sink σ]

/-! ## Assertions -/

/-- The values on the stack of a machine that has been used through calls are finite. -/
theorem isFinite_of_mem_perform (sink : σ) (calls : List Call) :
    ∀ v ∈ ((fresh sink).perform calls).stack, v.isFinite = true :=
  stack_perform (P := fun s => ∀ v ∈ s, v.isFinite = true) finite_of_hasEffect (fresh sink) calls
    (List.forall_mem_nil _)

/-- An assertion changes nothing, whether it succeeds or fails. -/
theorem step_assert_fst (m : Machine σ) (w : Operand) : (m.step (.assert w)).1 = m := by
  obtain ⟨e, sink, he, htaken, hstep⟩ | ⟨e, sink, reason, he, hrefused, -⟩ | ⟨fault, -, hstep⟩ :=
    m.step_cases (.assert w)
  · rw [hstep]
    generalize hstack : m.stack = s at he
    cases he
    cases htaken
    rw [← hstack]
  · generalize m.stack = s at he
    cases he
    cases hrefused
  · rw [hstep]

/-- An assertion succeeds exactly if its value is finite and agrees with the top of the stack. -/
theorem step_assert_succeeds_iff (m : Machine σ) (v : Operand) (rest : List Operand)
    (h : m.stack = v :: rest) (w : Operand) :
    (∃ flow, (m.step (.assert w)).2 = .ok flow) ↔
      w.isFinite = true ∧ Instruction.agrees v w = true := by
  constructor
  · rintro ⟨flow, hflow⟩
    obtain ⟨e, he, -⟩ := m.hasEffect_of_step _ flow hflow
    rw [h] at he
    cases he with
    | assert _ _ _ hw hagrees => exact ⟨hw, hagrees⟩
  · rintro ⟨hw, hagrees⟩
    have he : (Instruction.assert w).HasEffect m.stack ⟨v :: rest, []⟩ := by
      rw [h]
      exact .assert w v rest hw hagrees
    exact ⟨_, congrArg Prod.snd (m.step_of_taken he rfl)⟩

/-- **Assertions compare stored bits.** On a machine that has been used through calls, an assertion
succeeds exactly if its value passes the check of its kind and has the kind and the bits of the
value on top of the stack, which is to say that it is this value. It changes nothing in either
case. -/
theorem step_assert_iff_same_bits (sink : σ) (calls : List Call) (v : Operand)
    (rest : List Operand) (h : ((fresh sink).perform calls).stack = v :: rest) (w : Operand) :
    let m := (fresh sink).perform calls
    ((∃ flow, (m.step (.assert w)).2 = .ok flow) ↔
        (∃ u, w.checked = .ok u) ∧ v.kind = w.kind ∧ v.bits? = w.bits?) ∧
      ((∃ flow, (m.step (.assert w)).2 = .ok flow) ↔ w = v) ∧
      (m.step (.assert w)).1 = m := by
  intro m
  have hv : v.isFinite = true := isFinite_of_mem_perform sink calls v (by rw [h]; exact .head rest)
  have hsame : (∃ flow, (m.step (.assert w)).2 = .ok flow) ↔ w = v := by
    rw [m.step_assert_succeeds_iff v rest h w]
    constructor
    · rintro ⟨hw, hagrees⟩
      exact ((Instruction.agrees_iff v w hv hw).1 hagrees).symm
    · rintro rfl
      exact ⟨hv, (Instruction.agrees_iff w w hv hv).2 rfl⟩
  refine ⟨hsame.trans ⟨?_, ?_⟩, hsame, m.step_assert_fst w⟩
  · rintro rfl
    exact ⟨⟨w, w.checked_of_isFinite hv⟩, rfl, rfl⟩
  · rintro ⟨-, hkind, hbits⟩
    exact (v.eq_of_bits? w hv hkind hbits).symm

/-- With a positive zero on top, the assertion of a negative zero fails and that of a positive one
succeeds, as their bits say. -/
theorem step_assert_iff_same_bits_zeros :
    let calls : List Call := [.step (.push (.float (Binary.zero false)))]
    let m := (fresh ({} : Buffer)).perform calls
    m.stack = [.float (Binary.zero false)] ∧
      (Operand.float (Binary.zero false)).bits? = some 0 ∧
      (Operand.float (Binary.zero true)).bits? = some (2 ^ 31) ∧
      (∃ flow, (m.step (.assert (.float (Binary.zero false)))).2 = .ok flow) ∧
      ¬ ∃ flow, (m.step (.assert (.float (Binary.zero true)))).2 = .ok flow := by
  intro calls m
  have hstack : m.stack = [.float (Binary.zero false)] := by decide +kernel
  have hassert := step_assert_iff_same_bits ({} : Buffer) calls _ _ hstack
  refine ⟨hstack, rfl, rfl, (hassert _).2.1.2 rfl, ?_⟩
  rw [(hassert _).1]
  rintro ⟨-, -, hbits⟩
  cases hbits

end Machine

end NumStack
