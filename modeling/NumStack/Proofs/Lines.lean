import NumStack.Source.Assembly

/-!
# The grammar of a line

The tokens of a line derive a statement, an instruction whose literal is still text:

    instruction := ("push" | "assert") value | opcode
    value       := type argument
    argument    := "(" number ")" | number

Reading a line is sound and complete for this grammar: what it reads is the instruction of a
statement that the tokens derive, and every such instruction is read. Where it fails, the fault is
found at one token of the line, or at the token that stops it.
-/

namespace NumStack

/-! ## Statements -/

/-- An instruction as it is written: the literal of its value is still text. -/
inductive Statement where
  | simple (o : Opcode)
  | valued (o : Opcode) (kind : Kind) (literal : String)
  deriving DecidableEq, Repr

/-- The instruction of a statement, if its literal denotes an operand of its kind. -/
def Statement.instruction? : Statement → Option Instruction
  | simple o => Instruction.simple? o
  | valued o kind literal =>
    match Operand.ofLiteral kind literal with
    | .ok v => Instruction.withValue? o v
    | .error _ => none

namespace Grammar

/-! ## Derivations -/

/-- A number, in parentheses or not. -/
inductive Argument : List Token → Token → Prop where
  | bare (n : Token) (hn : n.isNumber = true) : Argument [n] n
  | enclosed (l n r : Token) (hl : l.kind = .leftParen) (hn : n.isNumber = true)
      (hr : r.kind = .rightParen) : Argument [l, n, r] n

/-- A kind with the number that is its argument. -/
inductive Value : List Token → Kind → String → Prop where
  | mk (t : Token) (kind : Kind) (ts : List Token) (n : Token) (ht : t.kind = .type kind)
      (harg : Argument ts n) : Value (t :: ts) kind n.text

/-- An opcode, with a value where it takes one. -/
inductive Instruction : List Token → Statement → Prop where
  | simple (t : Token) (o : Opcode) (ht : t.kind = .opcode o) (ho : o.takesValue = false) :
      Instruction [t] (.simple o)
  | valued (t : Token) (o : Opcode) (ts : List Token) (kind : Kind) (literal : String)
      (ht : t.kind = .opcode o) (ho : o.takesValue = true) (hvalue : Value ts kind literal) :
      Instruction (t :: ts) (.valued o kind literal)

end Grammar

namespace Token

theorem inLine_of_kind (t : Token) (k : TokenKind) (h : t.kind = k)
    (hk : (Token.mk k "" .start).inLine = true) : t.inLine = true := by
  subst h
  exact hk

theorem kind_ne_invalid_of_isNumber (t : Token) (h : t.isNumber = true) : t.kind ≠ .invalid := by
  intro hinvalid
  simp [isNumber, hinvalid] at h

theorem inLine_of_isNumber (t : Token) (h : t.isNumber = true) : t.inLine = true := by
  have hk : t.kind = .integer ∨ t.kind = .decimal := by simpa [isNumber] using h
  rcases hk with hk | hk
  · exact inLine_of_kind t _ hk rfl
  · exact inLine_of_kind t _ hk rfl

end Token

theorem bind_eq_ok {ε α β : Type} (x : Except ε α) (next : α → Except ε β) (b : β)
    (h : (x >>= next) = .ok b) : ∃ a, x = .ok a ∧ next a = .ok b := by
  cases x with
  | error e => cases h
  | ok a => exact ⟨a, rfl, h⟩

theorem bind_eq_error {ε α β : Type} (x : Except ε α) (next : α → Except ε β) (e : ε)
    (h : (x >>= next) = .error e) : x = .error e ∨ ∃ a, x = .ok a ∧ next a = .error e := by
  cases x with
  | error e' =>
    left
    cases h
    rfl
  | ok a => exact Or.inr ⟨a, rfl, h⟩

/-- A run of one class is as long as it can be where something of another class, or nothing, stands
behind it. -/
theorem run_append_stop {α : Type} (p : α → Bool) (body rest : List α)
    (hbody : ∀ a ∈ body, p a = true) (hrest : ∀ a ∈ rest.head?, p a = false) :
    (body ++ rest).takeWhile p = body ∧ (body ++ rest).dropWhile p = rest := by
  rw [List.takeWhile_append_of_pos hbody, List.dropWhile_append_of_pos hbody]
  cases rest with
  | nil => simp
  | cons a tail => simp [hrest a rfl]

/-- What stands in front of the first place of an element is the run of the others. -/
theorem run_append_first {α : Type} [BEq α] [LawfulBEq α] (a : α) (front rest : List α)
    (h : a ∉ front) :
    (front ++ a :: rest).takeWhile (· != a) = front ∧
      (front ++ a :: rest).dropWhile (· != a) = a :: rest :=
  run_append_stop _ front _ (fun _ hb => bne_iff_ne.2 fun heq => h (heq ▸ hb)) (by simp)

namespace Line

/-! ## Soundness -/

/-- The line is the given tokens and then the rest. -/
def Splits (l : Line) (ts : List Token) (rest : Line) : Prop :=
  l.tokens = ts ++ rest.tokens ∧ l.stop = rest.stop

/-- A token found at the front of a line, other than what stops it, is its first token. -/
theorem splits_next (l : Line) (h : l.current.inLine = true) (hstop : l.stop.inLine = false) :
    l.Splits [l.current] l.next := by
  obtain ⟨tokens, stop⟩ := l
  cases tokens with
  | nil =>
    rw [show (Line.mk [] stop).current = stop from rfl, hstop] at h
    cases h
  | cons t ts => exact ⟨rfl, rfl⟩

theorem Splits.append {l m n : Line} {ts us : List Token} (h : l.Splits ts m) (h' : m.Splits us n) :
    l.Splits (ts ++ us) n :=
  ⟨by rw [h.1, h'.1, List.append_assoc], h.2.trans h'.2⟩

/-- What is read as a number is one, at the front of the line. -/
theorem number_sound (l : Line) (hstop : l.stop.inLine = false) (t : Token) (rest : Line)
    (h : l.number = .ok (t, rest)) : t.isNumber = true ∧ l.Splits [t] rest := by
  unfold number at h
  split at h
  · rename_i hn
    cases h
    exact ⟨hn, l.splits_next (Token.inLine_of_isNumber _ hn) hstop⟩
  · cases h

/-- What is read as an argument is one. -/
theorem argument_sound (l : Line) (hstop : l.stop.inLine = false) (t : Token) (rest : Line)
    (h : l.argument = .ok (t, rest)) : ∃ ts, Grammar.Argument ts t ∧ l.Splits ts rest := by
  unfold argument at h
  split at h
  · rename_i hl
    have hsplit := l.splits_next (Token.inLine_of_kind _ _ hl rfl) hstop
    obtain ⟨⟨n, close⟩, hnum, h⟩ := bind_eq_ok _ _ _ h
    obtain ⟨hn, hsplit'⟩ := number_sound _ (by rw [← hsplit.2, hstop]) n close hnum
    dsimp only at h
    split at h
    · rename_i hr
      cases h
      have hclose := close.splits_next (Token.inLine_of_kind _ _ hr rfl)
        (by rw [← hsplit'.2, ← hsplit.2, hstop])
      exact ⟨_, .enclosed _ t _ hl hn hr, (hsplit.append hsplit').append hclose⟩
    · cases h
  · obtain ⟨hn, hsplit⟩ := number_sound l hstop t rest h
    exact ⟨[t], .bare t hn, hsplit⟩

/-- What is read as a value is one, and its literal denotes the operand read. -/
theorem value_sound (l : Line) (hstop : l.stop.inLine = false) (v : Operand) (rest : Line)
    (h : l.value = .ok (v, rest)) :
    ∃ ts kind literal, Grammar.Value ts kind literal ∧ Operand.ofLiteral kind literal = .ok v ∧
      l.Splits ts rest := by
  unfold value at h
  split at h
  · rename_i kind hk
    have hsplit := l.splits_next (Token.inLine_of_kind _ _ hk rfl) hstop
    obtain ⟨⟨t, rest'⟩, harg, h⟩ := bind_eq_ok _ _ _ h
    obtain ⟨ts, hts, hsplit'⟩ := argument_sound _ (by rw [← hsplit.2, hstop]) t rest' harg
    dsimp only at h
    split at h
    · rename_i hv
      cases h
      exact ⟨_, kind, t.text, .mk _ kind ts t hk hts, hv, hsplit.append hsplit'⟩
    · cases h
  · cases h

/-- What is read behind an opcode completes a statement. -/
theorem arguments_sound (o : Opcode) (l : Line) (hstop : l.stop.inLine = false) (i : Instruction)
    (rest : Line) (h : l.arguments o = .ok (i, rest)) (t : Token) (ht : t.kind = .opcode o) :
    ∃ ts s, Grammar.Instruction (t :: ts) s ∧ s.instruction? = some i ∧ l.Splits ts rest := by
  -- the two opcodes with a value read alike, and the others read nothing
  have hvalued : ∀ v, o.takesValue = true → Instruction.withValue? o v = some i →
      l.value = .ok (v, rest) →
      ∃ ts s, Grammar.Instruction (t :: ts) s ∧ s.instruction? = some i ∧ l.Splits ts rest := by
    intro v ho hi hv
    obtain ⟨ts, kind, literal, hts, hlit, hsplit⟩ := value_sound l hstop v rest hv
    refine ⟨ts, .valued o kind literal, .valued t o ts kind literal ht ho hts, ?_, hsplit⟩
    simp [Statement.instruction?, hlit, hi]
  have hsimple : o.takesValue = false → Instruction.simple? o = some i → l = rest →
      ∃ ts s, Grammar.Instruction (t :: ts) s ∧ s.instruction? = some i ∧ l.Splits ts rest := by
    rintro ho hi rfl
    exact ⟨[], .simple o, .simple t o ht ho, hi, rfl, rfl⟩
  cases o with
  | push | assert =>
    obtain ⟨⟨v, rest'⟩, hv, h⟩ := bind_eq_ok _ _ _ h
    cases h
    exact hvalued v rfl rfl hv
  | pop | dump | arith | print | exit =>
    cases h
    exact hsimple rfl rfl rfl

/-- What is read as an instruction is the instruction of a statement. -/
theorem instruction_sound (l : Line) (hstop : l.stop.inLine = false) (i : Instruction)
    (rest : Line) (h : l.instruction = .ok (i, rest)) :
    ∃ ts s, Grammar.Instruction ts s ∧ s.instruction? = some i ∧ l.Splits ts rest := by
  unfold instruction at h
  split at h
  · rename_i o ho
    have hsplit := l.splits_next (Token.inLine_of_kind _ _ ho rfl) hstop
    obtain ⟨ts, s, hs, hi, hsplit'⟩ := arguments_sound o _ (by rw [← hsplit.2, hstop]) i rest h _ ho
    exact ⟨_, s, hs, hi, hsplit.append hsplit'⟩
  all_goals cases h

/-- **Soundness.** A line of valid tokens that is read derives a statement of the instruction
read. -/
theorem read_sound (l : Line) (hstop : l.stop.inLine = false)
    (htokens : ∀ t ∈ l.tokens, t.inLine = true ∧ t.kind ≠ .invalid) (i : Instruction)
    (h : l.read = .ok i) : ∃ s, Grammar.Instruction l.tokens s ∧ s.instruction? = some i := by
  unfold read at h
  obtain ⟨⟨i', rest⟩, hi, h⟩ := bind_eq_ok _ _ _ h
  obtain ⟨ts, s, hs, hsi, hsplit⟩ := instruction_sound l hstop i' rest hi
  dsimp only at h
  split at h
  · rename_i hfin
    cases h
    -- a token left over would be in the line and valid, so the line would not be finished
    cases hrest : rest.tokens with
    | nil =>
      rw [hsplit.1, hrest, List.append_nil]
      exact ⟨s, hs, hsi⟩
    | cons t tail =>
      obtain ⟨hin, hvalid⟩ := htokens t (by rw [hsplit.1, hrest]; simp)
      have hcur : rest.current = t := by simp [current, hrest]
      simp [isFinished, hcur, hin, hvalid] at hfin
  · cases h

/-! ## Completeness -/

theorem number_complete (n : Token) (hn : n.isNumber = true) (rest : List Token) (stop : Token) :
    (Line.mk (n :: rest) stop).number = .ok (n, ⟨rest, stop⟩) :=
  if_pos hn

/-- An argument at the front of a line is read. -/
theorem argument_complete (ts : List Token) (n : Token) (h : Grammar.Argument ts n)
    (rest : List Token) (stop : Token) :
    (Line.mk (ts ++ rest) stop).argument = .ok (n, ⟨rest, stop⟩) := by
  cases h with
  | bare n hn =>
    have hparen : n.kind ≠ .leftParen := by
      intro hk
      simp [Token.isNumber, hk] at hn
    exact (if_neg hparen).trans (number_complete n hn rest stop)
  | enclosed l n r hl hn hr =>
    refine (if_pos hl).trans ?_
    show ((Line.mk (n :: r :: rest) stop).number >>= _) = _
    rw [number_complete n hn]
    exact if_pos hr

/-- A value at the front of a line is read if its literal denotes an operand. -/
theorem value_complete (ts : List Token) (kind : Kind) (literal : String)
    (h : Grammar.Value ts kind literal) (v : Operand) (hv : Operand.ofLiteral kind literal = .ok v)
    (rest : List Token) (stop : Token) :
    (Line.mk (ts ++ rest) stop).value = .ok (v, ⟨rest, stop⟩) := by
  cases h with
  | mk t kind ts n ht harg =>
    unfold value
    rw [show (Line.mk (t :: ts ++ rest) stop).current.kind = .type kind from ht]
    show ((Line.mk (ts ++ rest) stop).argument >>= _) = _
    rw [argument_complete ts n harg]
    show (match Operand.ofLiteral kind n.text with
      | .ok v => _
      | .error cause => _) = _
    rw [hv]
    rfl

/-- An instruction at the front of a line is read if its statement has one. -/
theorem instruction_complete (ts : List Token) (s : Statement) (h : Grammar.Instruction ts s)
    (i : Instruction) (hi : s.instruction? = some i) (rest : List Token) (stop : Token) :
    (Line.mk (ts ++ rest) stop).instruction = .ok (i, ⟨rest, stop⟩) := by
  cases h with
  | simple t o ht ho =>
    unfold instruction
    rw [show (Line.mk ([t] ++ rest) stop).current.kind = .opcode o from ht]
    cases o with
    | push => cases ho
    | assert => cases ho
    | pop | dump | arith | print | exit =>
      cases hi
      rfl
  | valued t o ts kind literal ht ho hvalue =>
    unfold instruction
    rw [show (Line.mk (t :: ts ++ rest) stop).current.kind = .opcode o from ht]
    cases hlit : Operand.ofLiteral kind literal with
    | error cause => simp [Statement.instruction?, hlit] at hi
    | ok v =>
      have hread := value_complete ts kind literal hvalue v hlit rest stop
      simp only [Statement.instruction?, hlit] at hi
      cases o with
      | push =>
        cases hi
        show ((Line.mk (ts ++ rest) stop).value >>= _) = _
        rw [hread]
        rfl
      | assert =>
        cases hi
        show ((Line.mk (ts ++ rest) stop).value >>= _) = _
        rw [hread]
        rfl
      | pop | dump | arith | print | exit => cases ho

/-- **Completeness.** A line that derives a statement is read as its instruction. -/
theorem read_complete (ts : List Token) (s : Statement) (h : Grammar.Instruction ts s)
    (i : Instruction) (hi : s.instruction? = some i) (stop : Token) (hstop : stop.inLine = false) :
    (Line.mk ts stop).read = .ok i := by
  have hread := instruction_complete ts s h i hi [] stop
  rw [List.append_nil] at hread
  unfold read
  rw [hread]
  have hfin : (Line.mk [] stop).isFinished = true := by simp [isFinished, current, hstop]
  exact if_pos hfin

end Line

/-! ## Faults -/

/-- The faults that can be found at a token: each has its position, and shows it. -/
inductive Token.HasFault (t : Token) : SourceFault → Prop where
  | unknownInstruction (h : t.kind = .unknown ∨ ∃ kind, t.kind = .type kind) :
      HasFault t (.unknownInstruction t.position t.text)
  | expectedKind : HasFault t (.expectedKind t.position t.describe)
  | expectedNumber : HasFault t (.expectedNumber t.position t.describe)
  | unexpectedToken (expected : String) :
      HasFault t (.unexpectedToken t.position expected t.describe)
  | invalidOperand (kind : Kind) (cause : OperandFault) (hn : t.isNumber = true)
      (h : Operand.ofLiteral kind t.text = .error cause) :
      HasFault t (.invalidOperand t.position cause)

/-- What makes a line fail at a token: the token was reported as invalid, or it is valid and has a
fault. -/
def LineFault.IsAt (t : Token) : LineFault → Prop
  | .reported => t.kind = .invalid
  | .fault cause => t.kind ≠ .invalid ∧ t.HasFault cause

/-- A fault at a token is found there, whether or not the token is valid. -/
theorem LineFault.isAt_atToken (t : Token) (cause : SourceFault) (h : t.HasFault cause) :
    (atToken t cause).IsAt t := by
  unfold atToken
  split
  · rename_i hk
    exact hk
  · rename_i hk
    exact ⟨hk, h⟩

namespace Grammar

/-- What stands between a kind and its number. -/
inductive Opening : List Token → Prop where
  | bare : Opening []
  | paren (l : Token) (hl : l.kind = .leftParen) : Opening [l]

/-- The ways in which a line is refused: the tokens taken so far, the token at fault, and the fault,
which shows that token. -/
inductive Refusal : List Token → Token → SourceFault → Prop where
  | unknown (t : Token) (ht : t.kind = .unknown ∨ ∃ kind, t.kind = .type kind) :
      Refusal [] t (.unknownInstruction t.position t.text)
  | instruction (t : Token) (ht : ∀ o, t.kind ≠ .opcode o) :
      Refusal [] t (.unexpectedToken t.position "instruction" t.describe)
  | kind (i t : Token) (o : Opcode) (hi : i.kind = .opcode o) (ht : ∀ kind, t.kind ≠ .type kind) :
      Refusal [i] t (.expectedKind t.position t.describe)
  | number (i k t : Token) (o : Opcode) (kind : Kind) (opened : List Token)
      (hi : i.kind = .opcode o) (hk : k.kind = .type kind) (hopened : Opening opened)
      (ht : t.isNumber = false) :
      Refusal (i :: k :: opened) t (.expectedNumber t.position t.describe)
  | close (i k l n t : Token) (o : Opcode) (kind : Kind) (hi : i.kind = .opcode o)
      (hk : k.kind = .type kind) (hl : l.kind = .leftParen) (hn : n.isNumber = true)
      (ht : t.kind ≠ .rightParen) :
      Refusal [i, k, l, n] t (.unexpectedToken t.position "')'" t.describe)
  | literal (i k n : Token) (o : Opcode) (kind : Kind) (opened : List Token) (cause : OperandFault)
      (hi : i.kind = .opcode o) (hk : k.kind = .type kind) (hopened : Opening opened)
      (hn : n.isNumber = true) (h : Operand.ofLiteral kind n.text = .error cause) :
      Refusal (i :: k :: opened) n (.invalidOperand n.position cause)
  | rest (ts : List Token) (s : Statement) (t : Token) (hts : Instruction ts s)
      (ht : t.inLine = true) :
      Refusal ts t (.unexpectedToken t.position "end of line" t.describe)

/-- A fault with which a line is refused is one of the token. -/
theorem Refusal.hasFault {front : List Token} {t : Token} {fault : SourceFault}
    (h : Refusal front t fault) : t.HasFault fault := by
  cases h with
  | unknown t ht => exact .unknownInstruction ht
  | instruction t ht => exact .unexpectedToken _
  | kind i t o hi ht => exact .expectedKind
  | number i k t o kind opened hi hk hopened ht => exact .expectedNumber
  | close i k l n t o kind hi hk hl hn ht => exact .unexpectedToken _
  | literal i k n o kind opened cause hi hk hopened hn h => exact .invalidOperand kind cause hn h
  | rest ts s t hts ht => exact .unexpectedToken _

/-- An argument is an opening, its number, and perhaps more. -/
theorem Argument.exists_opening {ts : List Token} {n : Token} (h : Argument ts n) :
    ∃ opened closed, Opening opened ∧ n.isNumber = true ∧ ts = opened ++ n :: closed := by
  cases h with
  | bare n hn => exact ⟨[], [], .bare, hn, rfl⟩
  | enclosed l n r hl hn hr => exact ⟨[l], [r], .paren l hl, hn, rfl⟩

end Grammar

namespace Line

/-- The line fails at one of its tokens, or at the one that stops it. -/
def FailsWith (l : Line) (e : LineFault) : Prop :=
  ∃ t, (t ∈ l.tokens ∨ t = l.stop) ∧ e.IsAt t

/-- Behind some of its tokens, given and taken, the line is refused at the next token. -/
def RefusedBehind (l : Line) (taken : List Token) (e : LineFault) : Prop :=
  ∃ front rest fault, l.Splits front rest ∧ Grammar.Refusal (taken ++ front) rest.current fault ∧
    e = .atToken rest.current fault

theorem refusedBehind_current (l : Line) (taken : List Token) (fault : SourceFault)
    (h : Grammar.Refusal taken l.current fault) :
    l.RefusedBehind taken (.atToken l.current fault) :=
  ⟨[], l, fault, ⟨rfl, rfl⟩, by rwa [List.append_nil], rfl⟩

theorem refusedBehind_of_valid (l : Line) (taken : List Token) (fault : SourceFault)
    (hvalid : l.current.kind ≠ .invalid) (h : Grammar.Refusal taken l.current fault) :
    l.RefusedBehind taken (.fault fault) := by
  have hfault : LineFault.atToken l.current fault = .fault fault := if_neg hvalid
  rw [← hfault]
  exact refusedBehind_current l taken fault h

/-- A refusal in the rest of a line is a refusal of the line. -/
theorem Splits.refusedBehind {l rest : Line} {ts taken : List Token} {e : LineFault}
    (hsplit : l.Splits ts rest) (h : rest.RefusedBehind (taken ++ ts) e) :
    l.RefusedBehind taken e := by
  obtain ⟨front, rest', fault, hsplit', hrefusal, he⟩ := h
  rw [List.append_assoc] at hrefusal
  exact ⟨ts ++ front, rest', fault, hsplit.append hsplit', hrefusal, he⟩

/-- A number is refused at the front of the line. -/
theorem number_eq_error (l : Line) (e : LineFault) (h : l.number = .error e) :
    l.current.isNumber = false ∧
      e = .atToken l.current (.expectedNumber l.current.position l.current.describe) := by
  unfold number at h
  split at h
  · cases h
  · rename_i hn
    cases h
    exact ⟨Bool.eq_false_iff.2 hn, rfl⟩

/-- An argument is refused for its number or its closing parenthesis. -/
theorem argument_refused (l : Line) (hstop : l.stop.inLine = false) (e : LineFault)
    (h : l.argument = .error e) (i k : Token) (o : Opcode) (kind : Kind) (hi : i.kind = .opcode o)
    (hk : k.kind = .type kind) : l.RefusedBehind [i, k] e := by
  unfold argument at h
  split at h
  · rename_i hl
    have hsplit := l.splits_next (Token.inLine_of_kind _ _ hl rfl) hstop
    rcases bind_eq_error _ _ _ h with h | ⟨⟨n, close⟩, hnum, h⟩
    · obtain ⟨hn, rfl⟩ := number_eq_error _ e h
      exact hsplit.refusedBehind
        (refusedBehind_current _ _ _ (.number i k _ o kind _ hi hk (.paren _ hl) hn))
    · obtain ⟨hn, hsplit'⟩ := number_sound _ (by rw [← hsplit.2, hstop]) n close hnum
      dsimp only at h
      split at h
      · cases h
      · rename_i hclose
        cases h
        exact (hsplit.append hsplit').refusedBehind
          (refusedBehind_current _ _ _ (.close i k _ n _ o kind hi hk hl hn hclose))
  · obtain ⟨hn, rfl⟩ := number_eq_error l e h
    exact refusedBehind_current _ _ _ (.number i k _ o kind [] hi hk .bare hn)

/-- A value is refused for its kind or its argument, or for a literal that its kind does not
take. -/
theorem value_refused (l : Line) (hstop : l.stop.inLine = false) (e : LineFault)
    (h : l.value = .error e) (i : Token) (o : Opcode) (hi : i.kind = .opcode o) :
    l.RefusedBehind [i] e := by
  unfold value at h
  split at h
  · rename_i kind hk
    have hsplit := l.splits_next (Token.inLine_of_kind _ _ hk rfl) hstop
    have hstop' : l.next.stop.inLine = false := by rw [← hsplit.2, hstop]
    rcases bind_eq_error _ _ _ h with h | ⟨⟨n, rest⟩, harg, h⟩
    · exact hsplit.refusedBehind (argument_refused _ hstop' e h i _ o kind hi hk)
    · dsimp only at h
      split at h
      · cases h
      · rename_i cause hcause
        cases h
        -- the refused number stands behind the opening of the argument
        obtain ⟨ts, hts, hsplit'⟩ := argument_sound l.next hstop' n rest harg
        obtain ⟨opened, closed, hopened, hn, rfl⟩ := hts.exists_opening
        have hnumber : l.next.Splits opened ⟨n :: closed ++ rest.tokens, rest.stop⟩ :=
          ⟨by rw [hsplit'.1, List.append_assoc], hsplit'.2⟩
        exact (hsplit.append hnumber).refusedBehind (refusedBehind_of_valid _ _ _
          (n.kind_ne_invalid_of_isNumber hn)
          (.literal i _ n o kind opened cause hi hk hopened hn hcause))
  · rename_i hk
    cases h
    exact refusedBehind_current _ _ _ (.kind i _ o hi hk)

/-- An instruction is refused for its opcode or its value. -/
theorem instruction_refused (l : Line) (hstop : l.stop.inLine = false) (e : LineFault)
    (h : l.instruction = .error e) : l.RefusedBehind [] e := by
  unfold instruction at h
  split at h
  · rename_i o ho
    have hsplit := l.splits_next (Token.inLine_of_kind _ _ ho rfl) hstop
    have hstop' : l.next.stop.inLine = false := by rw [← hsplit.2, hstop]
    apply hsplit.refusedBehind
    cases o with
    | push | assert =>
      rcases bind_eq_error _ _ _ h with h | ⟨⟨v, rest⟩, -, h⟩
      · exact value_refused _ hstop' e h _ _ ho
      · cases h
    | pop | dump | arith | print | exit => cases h
  · rename_i kind hk
    cases h
    have hvalid : l.current.kind ≠ .invalid := by simp [hk]
    exact refusedBehind_of_valid _ _ _ hvalid (.unknown _ (.inr ⟨kind, hk⟩))
  · rename_i hk
    cases h
    have hvalid : l.current.kind ≠ .invalid := by simp [hk]
    exact refusedBehind_of_valid _ _ _ hvalid (.unknown _ (.inl hk))
  · rename_i ho _ _
    cases h
    exact refusedBehind_current _ _ _ (.instruction _ ho)

/-- **Refusals.** A line that is not read is refused at one token, in one of the ways of the
grammar. -/
theorem read_refused (l : Line) (hstop : l.stop.inLine = false) (e : LineFault)
    (h : l.read = .error e) : l.RefusedBehind [] e := by
  unfold read at h
  rcases bind_eq_error _ _ _ h with h | ⟨⟨i, rest⟩, hi, h⟩
  · exact instruction_refused l hstop e h
  · obtain ⟨ts, s, hts, -, hsplit⟩ := instruction_sound l hstop i rest hi
    dsimp only at h
    split at h
    · cases h
    · rename_i hfinished
      cases h
      have hin : rest.current.inLine = true := by
        simp only [isFinished, Bool.or_eq_true, Bool.not_eq_true'] at hfinished
        simpa using (not_or.1 hfinished).1
      exact hsplit.refusedBehind (refusedBehind_current _ _ _ (.rest ts s _ hts hin))

/-- The token at the front of the rest of a line is one of its tokens, or the one that stops it. -/
theorem Splits.current_mem {l rest : Line} {ts : List Token} (hsplit : l.Splits ts rest) :
    rest.current ∈ l.tokens ∨ rest.current = l.stop := by
  unfold current
  rw [hsplit.1, hsplit.2]
  cases rest.tokens with
  | nil => exact .inr rfl
  | cons t more => exact .inl (List.mem_append_right ts List.mem_cons_self)

/-- **Faults.** A line that is not read fails at one of its tokens, or at the one that stops it. -/
theorem read_failsWith (l : Line) (hstop : l.stop.inLine = false) (e : LineFault)
    (h : l.read = .error e) : l.FailsWith e := by
  obtain ⟨front, rest, fault, hsplit, hrefusal, rfl⟩ := l.read_refused hstop e h
  exact ⟨rest.current, hsplit.current_mem, LineFault.isAt_atToken _ _ hrefusal.hasFault⟩

/-! ## The first line of a token list -/

theorem first_stop_inLine (tokens : List Token) : (first tokens).stop.inLine = false := by
  unfold first
  cases h : tokens.dropWhile Token.inLine with
  | nil => rfl
  | cons t ts =>
    have hhead := List.head?_dropWhile_not Token.inLine tokens
    rw [h] at hhead
    simpa using hhead

theorem inLine_of_mem_first (tokens : List Token) (t : Token) (h : t ∈ (first tokens).tokens) :
    t.inLine = true :=
  List.all_eq_true.1 (List.all_takeWhile) t h

end Line

end NumStack
