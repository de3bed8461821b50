import NumStack.Proofs.Grammar

/-!
# A cursor on a list of tokens

Here the lines of a token list are read by a cursor that counts the tokens in front of it. The list
may be any: where it has no end marker, one stands behind its last token. The cursor has one way to
move, to the next token and never past an end marker, so a loop that moves it as long as it stands
on tokens of some class comes to an end. Reading at the cursor gives what reading the line there
gives, and moves the cursor over tokens of this line only, also where it fails. So the lines from
the cursor on are the one that is read there and the later ones.
-/

namespace NumStack

/-- A line that starts with an invalid token was reported before. -/
theorem Line.read_of_invalid (l : Line) (h : l.current.kind = .invalid) :
    l.read = .error .reported := by
  have hinstruction : l.instruction = .error .reported := by
    simp only [instruction, h, unexpected, LineFault.atToken, if_true]
  rw [read, hinstruction]
  rfl

/-- A list of tokens, and how many of them are in front of the cursor. -/
structure Cursor where
  tokens : List Token
  pos : Nat
  deriving DecidableEq, Repr

namespace Cursor

/-! ## Moving -/

/-- The token at the cursor; behind the last token stands an end marker. -/
def current (c : Cursor) : Token := c.tokens.getD c.pos Token.missingEnd

/-- Moves to the next token, but not past an end marker. -/
def advance (c : Cursor) : Cursor :=
  if c.current.isEnd then c else { c with pos := c.pos + 1 }

/-- The tokens from the cursor on. -/
def remaining (c : Cursor) : List Token := c.tokens.drop c.pos

theorem current_eq_headD (c : Cursor) : c.current = c.remaining.headD Token.missingEnd := by
  rw [current, remaining, List.getD_eq_getElem?_getD, List.headD_eq_head?_getD, List.head?_drop]

section NotEnd

variable {c : Cursor} (h : c.current.isEnd = false)
include h

theorem advance_eq : c.advance = ⟨c.tokens, c.pos + 1⟩ := by
  rw [advance, h]
  rfl

/-- Where there is no end marker, there is a token of the list. -/
theorem remaining_eq_cons : c.remaining = c.current :: c.advance.remaining := by
  rw [advance_eq h, current_eq_headD]
  rw [current_eq_headD] at h
  have hnext : (Cursor.mk c.tokens (c.pos + 1)).remaining = c.remaining.tail := List.tail_drop.symm
  rw [hnext]
  cases hremaining : c.remaining with
  | nil =>
    rw [hremaining] at h
    cases h
  | cons t tail => rfl

/-- A cursor that is not past the first end marker, and not on it, is in front of it. -/
theorem pos_lt_findIdx (hle : c.pos ≤ c.tokens.findIdx Token.isEnd) :
    c.pos < c.tokens.findIdx Token.isEnd := by
  refine Nat.lt_of_le_of_ne hle fun heq => ?_
  have hlt : c.pos < c.tokens.length := by
    have hlen := congrArg List.length (remaining_eq_cons h)
    rw [remaining, List.length_drop, List.length_cons] at hlen
    omega
  have hend := List.findIdx_getElem (p := Token.isEnd) (w := heq ▸ hlt)
  have hcurrent : c.current = c.tokens[c.pos] := by
    rw [current, List.getD_eq_getElem?_getD, List.getElem?_eq_getElem hlt, Option.getD_some]
  simp only [← heq, ← hcurrent, h] at hend
  cases hend

end NotEnd

/-- Moves as long as the cursor stands on tokens of a class without end markers. -/
def skipWhile (p : Token → Bool) (hp : ∀ t, p t = true → t.isEnd = false) (c : Cursor) : Cursor :=
  if _h : p c.current = true then c.advance.skipWhile p hp else c
termination_by c.remaining.length
decreasing_by
  rw [remaining_eq_cons (hp _ _h), List.length_cons]
  exact Nat.lt_succ_self _

/-- Moves over newlines. -/
def skipNewlines (c : Cursor) : Cursor := c.skipWhile Token.isNewline Token.isEnd_of_isNewline

/-- Moves to the next line that is not empty. -/
def recover (c : Cursor) : Cursor :=
  (c.skipWhile Token.inLine Token.isEnd_of_inLine).skipNewlines

/-- The cursor moves over tokens of one class. -/
inductive Passes (p : Token → Bool) : Cursor → Cursor → Prop where
  | refl (c : Cursor) : Passes p c c
  | step (c c' : Cursor) (h : p c.current = true) (hmore : Passes p c.advance c') : Passes p c c'

namespace Passes

variable {p q : Token → Bool} {a b c : Cursor}

theorem trans (h : Passes p a b) (h' : Passes p b c) : Passes p a c := by
  induction h with
  | refl c => exact h'
  | step a b hp hmore ih => exact .step a c hp (ih h')

theorem mono (h : Passes p a b) (hpq : ∀ t, p t = true → q t = true) : Passes q a b := by
  induction h with
  | refl c => exact .refl c
  | step a b hp hmore ih => exact .step a b (hpq _ hp) ih

end Passes

/-- The cursor moves over tokens other than end markers. -/
abbrev Moves : Cursor → Cursor → Prop := Passes fun t => !t.isEnd

namespace Passes

variable {c c' : Cursor}

theorem moves (h : Passes Token.inLine c c') : Moves c c' :=
  h.mono fun t ht => by simp [t.isEnd_of_inLine ht]

theorem tokens_eq (h : Moves c c') : c'.tokens = c.tokens := by
  induction h with
  | refl c => rfl
  | step c c' hp hmore ih => rw [ih, advance_eq (by simpa using hp)]

/-- **Moving goes forward**, unless it goes nowhere. -/
theorem eq_or_pos_lt (h : Moves c c') : c = c' ∨ c.pos < c'.pos := by
  induction h with
  | refl c => exact .inl rfl
  | step c c' hp hmore ih =>
    have hpos : c.advance.pos = c.pos + 1 := by rw [advance_eq (by simpa using hp)]
    obtain rfl | hlt := ih
    · exact .inr (by omega)
    · exact .inr (by omega)

theorem le_pos (h : Moves c c') : c.pos ≤ c'.pos := by
  obtain rfl | hlt := h.eq_or_pos_lt
  · exact Nat.le_refl _
  · exact Nat.le_of_lt hlt

/-- **Moving never passes the first end marker**, nor the last token where there is none. -/
theorem pos_le (h : Moves c c') (hle : c.pos ≤ c.tokens.findIdx Token.isEnd) :
    c'.pos ≤ c'.tokens.findIdx Token.isEnd := by
  induction h with
  | refl c => exact hle
  | step c c' hp hmore ih =>
    have hend : c.current.isEnd = false := by simpa using hp
    exact ih (by rw [advance_eq hend]; exact pos_lt_findIdx hend hle)

end Passes

section Skip

variable (p : Token → Bool) (hp : ∀ t, p t = true → t.isEnd = false) (c : Cursor)

theorem passes_skipWhile : c.Passes p (c.skipWhile p hp) := by
  fun_induction skipWhile p hp c with
  | case1 c h ih => exact .step _ _ h ih
  | case2 c h => exact .refl c

/-- Skipping leads to the first token outside of the class. -/
theorem remaining_skipWhile : (c.skipWhile p hp).remaining = c.remaining.dropWhile p := by
  fun_induction skipWhile p hp c with
  | case1 c h ih => rw [ih, remaining_eq_cons (hp _ h), List.dropWhile_cons_of_pos h]
  | case2 c h =>
    rw [current_eq_headD] at h
    cases hremaining : c.remaining with
    | nil => rfl
    | cons t tail =>
      rw [hremaining, List.headD_cons] at h
      rw [List.dropWhile_cons_of_neg h]

theorem not_current_skipWhile : p (c.skipWhile p hp).current = false := by
  fun_induction skipWhile p hp c with
  | case1 c h ih => exact ih
  | case2 c h => exact Bool.eq_false_iff.2 h

theorem pos_lt_skipWhile (h : p c.current = true) : c.pos < (c.skipWhile p hp).pos := by
  have hmoves : c.Moves (c.skipWhile p hp) :=
    (passes_skipWhile p hp c).mono fun t ht => by simp [hp t ht]
  refine hmoves.eq_or_pos_lt.resolve_left fun heq => ?_
  have hcurrent := not_current_skipWhile p hp c
  rw [← heq, h] at hcurrent
  cases hcurrent

end Skip

theorem moves_skipNewlines (c : Cursor) : c.Moves c.skipNewlines :=
  (passes_skipWhile _ _ c).mono fun t ht => by simp [t.isEnd_of_isNewline ht]

theorem moves_recover (c : Cursor) : c.Moves c.recover :=
  (passes_skipWhile _ _ c).moves.trans (moves_skipNewlines _)

/-- **Recovering moves** wherever there is no end marker. -/
theorem pos_lt_recover (c : Cursor) (h : c.current.isEnd = false) : c.pos < c.recover.pos := by
  by_cases hline : c.current.inLine = true
  · exact Nat.lt_of_lt_of_le (pos_lt_skipWhile _ _ c hline) (moves_skipNewlines _).le_pos
  · -- the cursor is at the end of its line, so it moves over the newline
    have hnewline : c.current.isNewline = true := by simpa [Token.inLine, h] using hline
    have hstay : c.skipWhile Token.inLine Token.isEnd_of_inLine = c := by
      rw [skipWhile, dif_neg hline]
    rw [recover, hstay]
    exact pos_lt_skipWhile _ _ c hnewline

/-! ## Reading at the cursor -/

/-- What a reader gives: what it read or why it failed, and where the cursor is then. -/
structure Reading (α : Type) where
  result : Except LineFault α
  cursor : Cursor

/-- Reads on where the first reader succeeded. -/
def Reading.andThen {α β : Type} (r : Reading α) (next : α → Cursor → Reading β) : Reading β :=
  match r.result with
  | .ok a => next a r.cursor
  | .error fault => ⟨.error fault, r.cursor⟩

/-- The fault of finding the current token where something else is expected. -/
def unexpected (c : Cursor) (expected : String) : SourceFault :=
  .unexpectedToken c.current.position expected c.current.describe

/-- Reads a number. -/
def number (c : Cursor) : Reading Token :=
  if c.current.isNumber then ⟨.ok c.current, c.advance⟩
  else
    ⟨.error (.atToken c.current (.expectedNumber c.current.position c.current.describe)), c⟩

/-- Reads a number, in parentheses or not. -/
def argument (c : Cursor) : Reading Token :=
  if c.current.kind = .leftParen then
    c.advance.number.andThen fun token c =>
      if c.current.kind = .rightParen then ⟨.ok token, c.advance⟩
      else ⟨.error (.atToken c.current (c.unexpected "')'")), c⟩
  else c.number

/-- Reads the value of an instruction. -/
def value (c : Cursor) : Reading Operand :=
  match c.current.kind with
  | .type kind =>
    c.advance.argument.andThen fun token c =>
      match Operand.ofLiteral kind token.text with
      | .ok v => ⟨.ok v, c⟩
      | .error cause => ⟨.error (.fault (.invalidOperand token.position cause)), c⟩
  | _ => ⟨.error (.atToken c.current (.expectedKind c.current.position c.current.describe)), c⟩

/-- The instruction made at an opcode, which is unknown if there is none. -/
def made (opcode : Token) (i : Option Instruction) (c : Cursor) : Reading Instruction :=
  match i with
  | some i => ⟨.ok i, c⟩
  | none => ⟨.error (.fault (.unknownInstruction opcode.position opcode.text)), c⟩

/-- Reads an instruction. -/
def instruction (c : Cursor) : Reading Instruction :=
  match c.current.kind with
  | .opcode o =>
    if o.takesValue then
      c.advance.value.andThen fun v c' => c'.made c.current (Instruction.withValue? o v)
    else c.advance.made c.current (Instruction.simple? o)
  | .type _ | .unknown =>
    ⟨.error (.fault (.unknownInstruction c.current.position c.current.text)), c⟩
  | _ => ⟨.error (.atToken c.current (c.unexpected "instruction")), c⟩

/-- Whether a line may end at the cursor: at a newline, at text already reported, or at the end. -/
def isFinished (c : Cursor) : Bool :=
  c.current.isNewline || c.current.kind = .invalid || c.current.isEnd

/-- Reads a line. -/
def readLine (c : Cursor) : Reading Instruction :=
  c.instruction.andThen fun i c =>
    if c.isFinished then ⟨.ok i, c⟩ else ⟨.error (.fault (c.unexpected "end of line")), c⟩

/-! ## The line at the cursor -/

/-- The line at the cursor. -/
def line (c : Cursor) : Line := Line.first c.remaining

theorem line_current (c : Cursor) : c.line.current = c.current := by
  rw [current_eq_headD, line, Line.current, Line.first]
  cases c.remaining with
  | nil => rfl
  | cons t tail =>
    by_cases h : t.inLine = true
    · rw [List.takeWhile_cons_of_pos h, List.headD_cons, List.headD_cons]
    · rw [List.takeWhile_cons_of_neg h, List.dropWhile_cons_of_neg h, List.headD_nil,
        List.headD_cons]

/-- The line goes on behind a token that belongs to it. -/
theorem line_advance (c : Cursor) (h : c.current.inLine = true) : c.advance.line = c.line.next := by
  rw [line, line, remaining_eq_cons (c.current.isEnd_of_inLine h), Line.next, Line.first,
    Line.first, List.takeWhile_cons_of_pos h, List.dropWhile_cons_of_pos h, List.tail_cons]

theorem line_unexpected (c : Cursor) (expected : String) :
    c.line.unexpected expected = .atToken c.current (c.unexpected expected) := by
  rw [Line.unexpected, line_current]
  rfl

/-- **Reading at the cursor agrees with reading its line**: the result is the same, the cursor moved
over tokens of the line, and what is left of the line is the line at the cursor. -/
structure Agrees {α : Type} (c : Cursor) (r : Reading α) (x : Except LineFault (α × Line)) :
    Prop where
  passes : c.Passes Token.inLine r.cursor
  result : x = r.result.map fun a => (a, r.cursor.line)

namespace Agrees

variable {α β : Type} {c : Cursor}

/-- Readers in sequence agree. -/
theorem andThen {r : Reading α} {x : Except LineFault (α × Line)} {next : α → Cursor → Reading β}
    {f : α × Line → Except LineFault (β × Line)} (h : Agrees c r x)
    (hnext : ∀ a c', Agrees c' (next a c') (f (a, c'.line))) :
    Agrees c (r.andThen next) (x >>= f) := by
  obtain ⟨result, cursor⟩ := r
  obtain ⟨hpasses, rfl⟩ := h
  cases result with
  | error fault => exact ⟨hpasses, rfl⟩
  | ok a => exact ⟨hpasses.trans (hnext a cursor).passes, (hnext a cursor).result⟩

/-- Readers that start with a token of the line agree if they do behind it. -/
theorem advance {r : Reading α} {x : Except LineFault (α × Line)} (hline : c.current.inLine = true)
    (h : Agrees c.advance r x) : Agrees c r x :=
  ⟨.step c _ hline h.passes, h.result⟩

theorem fail (fault : LineFault) : Agrees (α := α) c ⟨.error fault, c⟩ (.error fault) :=
  ⟨.refl c, rfl⟩

end Agrees

theorem number_agrees (c : Cursor) : Agrees c c.number c.line.number := by
  unfold number Line.number
  rw [line_current]
  split
  · rename_i h
    have hline := c.current.inLine_of_isNumber h
    rw [← line_advance c hline]
    exact .advance hline ⟨.refl _, rfl⟩
  · exact .fail _

/-- Arguments are read alike. -/
theorem argument_agrees (c : Cursor) : Agrees c c.argument c.line.argument := by
  unfold argument Line.argument
  rw [line_current]
  split
  · rename_i h
    have hline := c.current.inLine_of_kind _ h rfl
    rw [← line_advance c hline]
    refine .advance hline ((number_agrees _).andThen fun token c' => ?_)
    dsimp only
    rw [line_current, line_unexpected]
    split
    · rename_i h'
      have hline' := c'.current.inLine_of_kind _ h' rfl
      rw [← line_advance c' hline']
      exact .advance hline' ⟨.refl _, rfl⟩
    · exact .fail _
  · exact number_agrees c

/-- Values are read alike. -/
theorem value_agrees (c : Cursor) : Agrees c c.value c.line.value := by
  unfold value Line.value
  rw [line_current]
  cases hkind : c.current.kind with
  | type kind =>
    have hline := c.current.inLine_of_kind _ hkind rfl
    rw [← line_advance c hline]
    refine .advance hline ((argument_agrees _).andThen fun token c' => ?_)
    dsimp only
    cases Operand.ofLiteral kind token.text with
    | ok v => exact ⟨.refl _, rfl⟩
    | error cause => exact .fail _
  | _ => exact .fail _

/-- Instructions are read alike: there is one for every opcode. -/
theorem instruction_agrees (c : Cursor) : Agrees c c.instruction c.line.instruction := by
  unfold instruction Line.instruction
  rw [line_current, line_unexpected]
  cases hkind : c.current.kind with
  | opcode o =>
    have hline := c.current.inLine_of_kind _ hkind rfl
    rw [← line_advance c hline]
    cases o with
    | push | assert => exact .advance hline ((value_agrees _).andThen fun v c' => ⟨.refl _, rfl⟩)
    | pop | dump | arith | print | exit => exact .advance hline ⟨.refl _, rfl⟩
  | _ => exact .fail _

theorem line_isFinished (c : Cursor) : c.line.isFinished = c.isFinished := by
  rw [Line.isFinished, line_current, isFinished, Token.inLine]
  cases c.current.isNewline <;> cases c.current.isEnd <;> simp

/-- A reading of an instruction ends the reading of the line if it fails, or if the line is finished
there; otherwise something else is found. -/
theorem readLine_cases (c : Cursor) :
    (∃ fault, c.instruction.result = .error fault ∧
        c.readLine = ⟨.error fault, c.instruction.cursor⟩) ∨
      ∃ i, c.instruction.result = .ok i ∧
        ((c.instruction.cursor.isFinished = true ∧ c.readLine = ⟨.ok i, c.instruction.cursor⟩) ∨
          (c.instruction.cursor.isFinished = false ∧
            c.readLine = ⟨.error (.fault (c.instruction.cursor.unexpected "end of line")),
              c.instruction.cursor⟩)) := by
  unfold readLine Reading.andThen
  cases hresult : c.instruction.result with
  | error fault => exact .inl ⟨fault, rfl, rfl⟩
  | ok i =>
    refine .inr ⟨i, rfl, ?_⟩
    cases hfinished : c.instruction.cursor.isFinished with
    | false => exact .inr ⟨rfl, if_neg (Bool.eq_false_iff.1 hfinished)⟩
    | true => exact .inl ⟨rfl, if_pos hfinished⟩

/-- **A line is read alike**, and the cursor moves over tokens of the line only. -/
theorem readLine_agrees (c : Cursor) :
    c.Passes Token.inLine c.readLine.cursor ∧ c.line.read = c.readLine.result := by
  obtain ⟨hpasses, hresult⟩ := c.instruction_agrees
  rw [Line.read, hresult]
  obtain ⟨fault, hfault, hread⟩ | ⟨i, hi, ⟨hfinished, hread⟩ | ⟨hfinished, hread⟩⟩ :=
    c.readLine_cases
  · rw [hread, hfault]
    exact ⟨hpasses, rfl⟩
  · rw [hread, hi]
    refine ⟨hpasses, if_pos ?_⟩
    rw [line_isFinished, hfinished]
  · rw [hread, hi]
    refine ⟨hpasses, (if_neg ?_).trans ?_⟩
    · rw [line_isFinished, hfinished]
      exact Bool.false_ne_true
    · have hvalid : c.instruction.cursor.current.kind ≠ .invalid := by
        intro hinvalid
        simp [isFinished, hinvalid] at hfinished
      rw [line_unexpected, LineFault.atToken, if_neg hvalid]
      rfl

/-- **A line that is read moves the cursor**, to where the line is finished. -/
theorem readLine_ok (c : Cursor) (i : Instruction) (h : c.readLine.result = .ok i) :
    c.pos < c.readLine.cursor.pos ∧ c.readLine.cursor.isFinished = true := by
  obtain ⟨fault, hfault, hread⟩ | ⟨i, hi, ⟨hfinished, hread⟩ | ⟨hfinished, hread⟩⟩ :=
    c.readLine_cases
  · rw [hread] at h
    cases h
  · rw [hread]
    refine ⟨?_, hfinished⟩
    obtain ⟨hpasses, hresult⟩ := c.instruction_agrees
    refine hpasses.moves.eq_or_pos_lt.resolve_left fun heq => ?_
    -- an instruction has tokens, which are not left on the line
    rw [hi, ← heq] at hresult
    obtain ⟨ts, s, hs, -, hsplit⟩ :=
      Line.instruction_sound c.line (Line.first_stop_inLine _) i c.line hresult
    have hlen := congrArg List.length hsplit.1
    rw [List.length_append, Nat.right_eq_add, List.length_eq_zero_iff] at hlen
    exact hs.inLine.1 hlen
  · rw [hread] at h
    cases h

/-! ## The lines from the cursor on -/

variable (c : Cursor)

/-- The lines behind the one at the cursor. -/
def later : List Token := c.remaining.dropWhile Token.inLine

variable {c}

theorem Passes.later_eq {c' : Cursor} (h : c.Passes Token.inLine c') : c'.later = c.later := by
  induction h with
  | refl c => rfl
  | step c c' h hmore ih =>
    rw [ih, later, later, remaining_eq_cons (c.current.isEnd_of_inLine h),
      List.dropWhile_cons_of_pos h]

variable (c)

/-- Newlines are skipped to no effect. -/
theorem linesRead_skipNewlines :
    Program.linesRead c.skipNewlines.remaining = Program.linesRead c.remaining := by
  rw [skipNewlines, remaining_skipWhile, Program.linesRead_dropWhile_newline]

/-- Recovering gives up the line at the cursor. -/
theorem linesRead_recover :
    Program.linesRead c.recover.remaining = Program.linesRead c.later := by
  rw [recover, linesRead_skipNewlines, remaining_skipWhile, later]

variable {c}

/-- **The lines from the cursor on** are the one at the cursor and the later ones. -/
theorem linesRead_remaining (hend : c.current.isEnd = false)
    (hnewline : c.current.isNewline = false) :
    (∀ i, c.line.read = .ok i → Program.linesRead c.remaining =
        (i :: (Program.linesRead c.later).1, (Program.linesRead c.later).2)) ∧
      (c.line.read = .error .reported →
        Program.linesRead c.remaining = Program.linesRead c.later) ∧
      ∀ fault, c.line.read = .error (.fault fault) → Program.linesRead c.remaining =
        ((Program.linesRead c.later).1, fault :: (Program.linesRead c.later).2) := by
  have hline : c.current.inLine = true := by simp [Token.inLine, hend, hnewline]
  have hremaining := remaining_eq_cons hend
  have hlater : c.later = c.advance.remaining.dropWhile Token.inLine := by
    rw [later, hremaining, List.dropWhile_cons_of_pos hline]
  have hlines := Program.linesRead_of_dropWhile_eq_cons c.remaining c.current c.advance.remaining
    (by rw [hremaining, List.dropWhile_cons_of_neg (by simp [hnewline])])
  rw [if_neg (by simp [hend]), ← hremaining, ← hlater, ← line] at hlines
  refine ⟨?_, ?_, ?_⟩
  · intro i hread
    rw [hlines, hread]
  · intro hread
    rw [hlines, hread]
  · intro fault hread
    rw [hlines, hread]

/-- **Behind a line that is finished** only the later lines are read, also where text stands there
that was reported before. -/
theorem linesRead_of_isFinished (h : c.isFinished = true) :
    Program.linesRead c.remaining = Program.linesRead c.later := by
  by_cases hline : c.current.inLine = true
  · have hend := c.current.isEnd_of_inLine hline
    have hnewline := c.current.isNewline_of_inLine hline
    have hinvalid : c.current.kind = .invalid := by simpa [isFinished, hend, hnewline] using h
    have hread := c.line.read_of_invalid (by rw [line_current, hinvalid])
    exact (linesRead_remaining hend hnewline).2.1 hread
  · have hskip : (c.skipWhile Token.inLine Token.isEnd_of_inLine) = c := by
      rw [skipWhile, dif_neg hline]
    rw [later, ← remaining_skipWhile Token.inLine Token.isEnd_of_inLine, hskip]

end Cursor

end NumStack
