import NumStack.Proofs.AssertedValues
import NumStack.Proofs.ExactValues
import NumStack.Proofs.FailedSteps
import NumStack.Proofs.KindStack
import NumStack.Proofs.LiteralValues

/-!
# Faults of range

Arithmetic on finite operands rounds the exact result to a double, and for single precision the
bounds check rounds once more. Neither rounding passes a bound of the result kind, as bounds are
numbers of both formats. So an overflow means that the exact result is above the greatest value of
the kind, and an underflow that it is below the least. A machine computes with finite operands only,
hence no fault of range in a run comes from `nan` or from a result of the other sign.
-/

namespace NumStack

/-! ## Bounds of kinds -/

theorem Kind.bounds_finite (k : Kind) :
    (k.greatest.isFinite = true ∧ 0 < k.greatest.signedUnits) ∧
      k.least.isFinite = true ∧ k.least.signedUnits < 0 := by
  cases k <;> decide +kernel

theorem Kind.bounds_value (k : Kind) : 0 < k.greatest.value ∧ k.least.value < 0 := by
  obtain ⟨⟨-, hgreatest⟩, -, hleast⟩ := k.bounds_finite
  have hpow : (0 : ℚ) < 2 ^ Format.double.scale := by positivity
  exact ⟨div_pos (by exact_mod_cast hgreatest) hpow,
    div_neg_of_neg_of_pos (by exact_mod_cast hleast) hpow⟩

namespace OperandFault

theorem overflow_ne_underflow (k : Kind) : overflow k ≠ underflow k := by
  intro h
  cases congrFun h ""

end OperandFault

namespace Operand

/-- The bounds of single precision are the two numbers of one code, and they are converted to finite
singles. -/
theorem exists_float_bound :
    ∃ c h, Kind.float.greatest = .number false c h ∧ Kind.float.least = .number true c h ∧
      ((Binary.number false c h : Double).convert : Single).isFinite = true := by
  have hlt : Format.single.infinity - 1 < Format.single.infinity := by decide
  have hbound : ∀ s, ((Binary.largest s : Single).convert : Double) = _ :=
    fun s => Binary.convert_of_lt s _ _ hlt
  refine ⟨_, _, hbound false, hbound true, ?_⟩
  rw [← Binary.ofRatio, ← hbound false, Binary.convert_convert]
  exact decide_eq_true hlt

/-- A double out of the bounds of single precision is out of bounds on the side of its sign, and has
a greater code than the bounds. -/
theorem boundsFault?_float_number (s : Bool) (c b : Nat) (h : c ≤ Format.double.infinity)
    (hb : b ≤ Format.double.infinity)
    (hfinite : ((Binary.number false b hb : Double).convert : Single).isFinite = true)
    (hfault : boundsFault? .float (.number s c h) ≠ none) :
    boundsFault? .float (.number s c h) = some (.beyond .float s) ∧ b < c := by
  have hnot : ¬ ((Binary.number s c h : Double).convert : Single).isFinite = true := by
    rwa [← boundsFault?_float_iff]
  refine ⟨boundsFault?_float_of_infinite _ s (Binary.convert_eq_infinite s c h hnot), ?_⟩
  by_contra hle
  exact hnot (Binary.isFinite_convert_of_code_le Format.single_regular s false c b h hb
    (not_lt.1 hle) hfinite)

/-- **A double is out of bounds on the side on which it passes the bound**, for single precision
too, where the check rounds it first. -/
theorem signedUnits_of_boundsFault? (k : Kind) (x : Double) (hx : x.isNan = false) :
    (boundsFault? k x = some (.overflow k) → k.greatest.signedUnits < x.signedUnits) ∧
      (boundsFault? k x = some (.underflow k) → x.signedUnits < k.least.signedUnits) := by
  have hne := OperandFault.overflow_ne_underflow k
  obtain ⟨⟨hgreatest, -⟩, hleast, -⟩ := k.bounds_finite
  by_cases hfloat : k = .float
  · subst hfloat
    cases x with
    | nan => cases hx
    | number s c h =>
      obtain ⟨b, hb, hup, hlow, hfinite⟩ := exists_float_bound
      have hunits : b < c → Format.double.units b < Format.double.units c :=
        fun hlt => Format.double.units_strictMono hlt
      rw [hup, hlow, Binary.signedUnits_number, Binary.signedUnits_number,
        Binary.signedUnits_number]
      constructor
      · intro hover
        obtain ⟨hside, hlt⟩ := boundsFault?_float_number s c b h hb hfinite (by rw [hover]; simp)
        cases s with
        | false => simpa using hunits hlt
        | true => exact absurd (Option.some.inj (hover.symm.trans hside)) hne
      · intro hunder
        obtain ⟨hside, hlt⟩ := boundsFault?_float_number s c b h hb hfinite (by rw [hunder]; simp)
        cases s with
        | false => exact absurd (Option.some.inj (hunder.symm.trans hside)) hne.symm
        | true => simpa using hunits hlt
  · have hnan : ∀ y : Double, y.isFinite = true → y.isNan = false := by
      intro y hy
      obtain ⟨s, c, h, rfl, -⟩ := Binary.exists_number_of_isFinite y hy
      rfl
    rw [← Binary.less_iff _ x (hnan _ hgreatest) hx, ← Binary.less_iff x _ hx (hnan _ hleast)]
    simp only [boundsFault?, if_neg hfloat, hx, Bool.false_or]
    constructor
    · intro hover
      split at hover
      · assumption
      · split at hover
        · exact absurd (Option.some.inj hover) hne.symm
        · cases hover
    · intro hunder
      split at hunder
      · exact absurd (Option.some.inj hunder) hne
      · split at hunder
        · assumption
        · cases hunder

/-! ## Outcomes of arithmetic -/

/-- What may come of an exact result in a kind: a valid operand of the kind, or a fault of range on
the side on which the exact result is beyond the bounds. -/
inductive Narrowed (k : Kind) (q : ℚ) : Except OperandFault Operand → Prop
  | valid (v : Operand) (hkind : v.kind = k) (hv : v.checked = .ok v) : Narrowed k q (.ok v)
  | overflow (text : String) (h : k.greatest.value < q) :
      Narrowed k q (.error (.overflow k text))
  | underflow (text : String) (h : q < k.least.value) :
      Narrowed k q (.error (.underflow k text))

/-- **A rounded exact result is narrowed on the right side.** -/
theorem narrowed_ofWide (k : Kind) (x : Double) (num : ℤ) (den : ℕ) (hden : 0 < den)
    (hx : x.IsRounded num den) :
    Narrowed k (num / (den * 2 ^ Format.double.scale)) (ofWide k x) := by
  obtain ⟨⟨hgreatest, -⟩, hleast, -⟩ := k.bounds_finite
  obtain ⟨hover, hunder⟩ := signedUnits_of_boundsFault? k x hx.isNan_eq_false
  cases hbounds : boundsFault? k x with
  | none =>
    have hok : ofWide k x = .ok (narrow k x) := by rw [ofWide, hbounds]
    obtain ⟨hkind, hfinite⟩ := finite_of_ofWide k x _ hok
    rw [hok]
    exact .valid _ hkind (checked_of_isFinite _ hfinite)
  | some side =>
    have herror : ofWide k x = .error (side x.text) := by rw [ofWide, hbounds]
    rw [herror]
    obtain rfl | rfl := boundsFault?_eq_some k x side hbounds
    · exact .overflow _ ((hx.value_lt_and_lt_value Format.double_regular hden _ hgreatest).1
        (hover hbounds))
    · exact .underflow _ ((hx.value_lt_and_lt_value Format.double_regular hden _ hleast).2
        (hunder hbounds))

end Operand

namespace Operation

/-- Arithmetic on finite operands either divides by zero, or narrows a rounding of the exact
result. -/
theorem apply_of_finite (op : Operation) (a b : Operand) (ha : a.isFinite = true)
    (hb : b.isFinite = true) :
    (op.divides = true ∧ b.value = 0 ∧ op.apply a b = .error .divisionByZero) ∨
      (¬ (op.divides = true ∧ b.value = 0) ∧ (op.onDoubles a.wide b.wide).isNan = false ∧
        Operand.Narrowed (a.kind.max b.kind) (op.onRationals a.value b.value) (op.apply a b)) := by
  have hzero := b.isZero_iff hb
  by_cases hdiv : op.divides = true ∧ b.value = 0
  · refine .inl ⟨hdiv.1, hdiv.2, ?_⟩
    rw [apply, if_pos (by simp [hdiv.1, hzero.2 hdiv.2])]
  · obtain ⟨num, den, hden, hrounded, hexact⟩ := op.onDoubles_isRounded a b ha hb hdiv
    refine .inr ⟨hdiv, hrounded.isNan_eq_false, ?_⟩
    rw [apply, if_neg (by simpa [hzero] using hdiv), ← hexact]
    exact Operand.narrowed_ofWide _ _ num den hden hrounded

/-- A fault of range means that the result is beyond the bound of its side. -/
theorem exact_of_rangeFault (op : Operation) (a b : Operand) (ha : a.isFinite = true)
    (hb : b.isFinite = true) (kind : Kind) (text : String) :
    (op.apply a b = .error (.overflow kind text) →
      (op.onDoubles a.wide b.wide).isNan = false ∧
        kind.greatest.value < op.onRationals a.value b.value) ∧
      (op.apply a b = .error (.underflow kind text) →
        (op.onDoubles a.wide b.wide).isNan = false ∧
          op.onRationals a.value b.value < kind.least.value) := by
  obtain ⟨-, -, hzero⟩ | ⟨-, hnan, hnarrowed⟩ := op.apply_of_finite a b ha hb
  · rw [hzero]
    constructor
    · intro h
      cases h
    · intro h
      cases h
  · constructor
    · intro h
      rw [h] at hnarrowed
      cases hnarrowed with
      | overflow text hlt => exact ⟨hnan, hlt⟩
    · intro h
      rw [h] at hnarrowed
      cases hnarrowed with
      | underflow text hlt => exact ⟨hnan, hlt⟩

end Operation

namespace Machine

variable {σ : Type} [Sink σ]

/-! ## Faults of range in runs -/

/-- **An arithmetic fault of a run comes from the two values on top of the stack**, which are finite
if all values were when the run began. -/
theorem exists_operands_of_execute (m : Machine σ) (hm : ∀ v ∈ m.stack, v.isFinite = true)
    (p : Program) (k : Nat) (op : Operation) (hop : p[k]? = some (.arith op)) (cause : OperandFault)
    (h : (m.execute p).2 = .error (.arithmetic k cause)) :
    ∃ left right rest, (m.execute p).1.stack = right :: left :: rest ∧ left.isFinite = true ∧
      right.isFinite = true ∧ op.apply left right = .error cause := by
  have hrun := m.runFrom_snd_of_execute p _ (by simp) h
  obtain ⟨n, i, m', hi, hm', hfails⟩ := exists_attempt_of_runFrom_error
    (P := fun m => ∀ v ∈ m.stack, v.isFinite = true)
    (fun m k i hm => stack_step finite_of_hasEffect { m with index := k } i hm)
    (fun _ _ hm => hm) m 0 p hm _ hrun (by simp)
  rw [Nat.zero_add] at hfails
  have hfault := congrArg Prod.snd hfails
  -- the fault has the number of the instruction that raised it
  obtain rfl : k = n := by
    have hindex := index?_of_step_error { m' with index := n } i _ hfault
    exact Option.some.inj hindex
  obtain rfl : i = .arith op := Option.some.inj (hi.symm.trans hop)
  obtain ⟨-, hshort⟩ | ⟨left, right, rest, cause', hstack, hresult, hcause⟩ :=
    ((attempt_eq_error_iff m' k _ _ (by simp)).1 hfault).arith_cases
  · cases hshort
  · cases hcause
    rw [hstack] at hm'
    refine ⟨left, right, rest, ?_, hm' left (by simp), hm' right (by simp), hresult⟩
    have hkept := stack_of_step_error { m' with index := k } (.arith op) _ hfault
    rw [execute_fst]
    show (m.runFrom 0 p).1.stack = _
    rw [← congrArg Prod.fst hfails, ← hstack]
    exact hkept

/-- **Arithmetic on valid operands never meets `nan`, and blames the side of the exact result.** It
refuses a division by zero, and refuses nothing else as one. Otherwise the result in double
precision is not `nan`, and what comes of it is a valid operand of the greater kind, or an overflow
if the exact result is above the greatest value of this kind, or an underflow if it is below the
least. Hence, if a run on a machine that has been used through calls fails with an overflow at an
arithmetic instruction, the exact result of the two values on top of the stack is positive and
beyond the bound, and with an underflow it is negative. -/
theorem arithmetic_blames_side_of_exact_result :
    (∀ (op : Operation) (a b : Operand), a.checked = .ok a → b.checked = .ok b →
      (op.apply a b = .error .divisionByZero ↔ op.divides = true ∧ b.value = 0) ∧
      (¬ (op.divides = true ∧ b.value = 0) →
        (op.onDoubles a.wide b.wide).isNan = false ∧
        Operand.Narrowed (a.kind.max b.kind) (op.onRationals a.value b.value) (op.apply a b))) ∧
    ∀ (σ : Type) [Sink σ] (sink : σ) (calls : List Call) (p : Program) (k : Nat) (op : Operation)
      (kind : Kind) (text : String), p[k]? = some (.arith op) →
      let run := ((fresh sink).perform calls).execute p
      (run.2 = .error (.arithmetic k (.overflow kind text)) →
        ∃ left right rest, run.1.stack = right :: left :: rest ∧
          (op.onDoubles left.wide right.wide).isNan = false ∧
          0 < op.onRationals left.value right.value ∧
          kind.greatest.value < op.onRationals left.value right.value) ∧
      (run.2 = .error (.arithmetic k (.underflow kind text)) →
        ∃ left right rest, run.1.stack = right :: left :: rest ∧
          (op.onDoubles left.wide right.wide).isNan = false ∧
          op.onRationals left.value right.value < 0 ∧
          op.onRationals left.value right.value < kind.least.value) := by
  constructor
  · intro op a b ha hb
    have hfa := a.isFinite_of_checked a ha
    have hfb := b.isFinite_of_checked b hb
    obtain ⟨hdivides, hzero, hrefused⟩ | ⟨hdiv, hnan, hnarrowed⟩ := op.apply_of_finite a b hfa hfb
    · exact ⟨⟨fun _ => ⟨hdivides, hzero⟩, fun _ => hrefused⟩, fun h => absurd ⟨hdivides, hzero⟩ h⟩
    · refine ⟨⟨fun hrefused => ?_, fun h => absurd h hdiv⟩, fun _ => ⟨hnan, hnarrowed⟩⟩
      rw [hrefused] at hnarrowed
      cases hnarrowed
  · intro σ _ sink calls p k op kind text hop run
    have hfinite := isFinite_of_mem_perform sink calls
    obtain ⟨hgreatest, hleast⟩ := kind.bounds_value
    constructor
    · intro hover
      obtain ⟨left, right, rest, hstack, hleft, hright, hresult⟩ :=
        exists_operands_of_execute _ hfinite p k op hop _ hover
      obtain ⟨hnan, hlt⟩ := (op.exact_of_rangeFault left right hleft hright kind text).1 hresult
      exact ⟨left, right, rest, hstack, hnan, hgreatest.trans hlt, hlt⟩
    · intro hunder
      obtain ⟨left, right, rest, hstack, hleft, hright, hresult⟩ :=
        exists_operands_of_execute _ hfinite p k op hop _ hunder
      obtain ⟨hnan, hlt⟩ := (op.exact_of_rangeFault left right hleft hright kind text).2 hresult
      exact ⟨left, right, rest, hstack, hnan, hlt.trans hleast, hlt⟩

/-- The least 16-bit integer times the greatest single is beyond the least single, in a run too. -/
theorem arithmetic_blames_side_of_exact_result_product :
    let least : Operand := .int16 (-32768)
    let largest : Operand := .float (Binary.largest false)
    let p : Program := [.push largest, .arith .mul, .exit]
    let run := ((fresh ({} : Buffer)).perform [.step (.push least)]).execute p
    least.checked = .ok least ∧ largest.checked = .ok largest ∧
      (∃ text, Operation.mul.apply least largest = .error (.underflow .float text) ∧
        run.2 = .error (.arithmetic 1 (.underflow .float text))) ∧
      Operation.mul.onRationals least.value largest.value < Kind.float.least.value ∧
      ∃ left right rest, run.1.stack = right :: left :: rest ∧
        Operation.mul.onRationals left.value right.value < 0 := by
  intro least largest p run
  have hleast : least.checked = .ok least := Operand.checked_of_isFinite _ rfl
  have hlargest : largest.checked = .ok largest := Operand.checked_of_isFinite _ (by decide +kernel)
  obtain ⟨happly, hrun⟩ := arithmetic_blames_side_of_exact_result
  obtain ⟨text, htext, hfails⟩ : ∃ text,
      Operation.mul.apply least largest = .error (.underflow .float text) ∧
      run.2 = .error (.arithmetic 1 (.underflow .float text)) :=
    ⟨(Operation.mul.onDoubles least.wide largest.wide).text, by decide +kernel, by decide +kernel⟩
  refine ⟨hleast, hlargest, ⟨text, htext, hfails⟩, ?_, ?_⟩
  · have hdiv : ¬ (Operation.mul.divides = true ∧ largest.value = 0) :=
      fun h => Bool.false_ne_true h.1
    have hnarrowed := ((happly .mul least largest hleast hlargest).2 hdiv).2
    rw [htext] at hnarrowed
    cases hnarrowed with
    | underflow text hlt => exact hlt
  · obtain ⟨left, right, rest, hstack, -, hnegative, -⟩ :=
      (hrun Buffer {} [.step (.push least)] p 1 .mul .float text rfl).2 hfails
    refine ⟨left, right, rest, ?_, hnegative⟩
    unfold run
    exact hstack

end Machine

end NumStack
