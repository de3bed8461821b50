import NumStack.Proofs.Cursor

/-!
# The parser makes progress

The parser reads the lines of a token list in rounds, until its cursor is on an end marker. A round
that fails may have left the cursor where it was, and then recovering moves it; where the cursor was
at a newline, only skipping newlines does. So every round after which the parser goes on brings the
cursor forward, the cursor never passes the first end marker, and there are no more rounds than
tokens in front of it. What the parser returns is the program of the tokens.
-/

namespace NumStack

/-- A parser between two rounds: its cursor, the instructions read so far and whether an `exit` is
one of them, and what has been reported. -/
structure Parser where
  cursor : Cursor
  program : Program
  sawExit : Bool
  report : Report

namespace Parser

/-! ## Rounds -/

/-- The parser in front of the first line. -/
def start (tokens : List Token) (report : Report) : Parser where
  cursor := (Cursor.mk tokens 0).skipNewlines
  program := []
  sawExit := false
  report := report

/-- Reads one line. This gives the fault with which the parser returns, if it does, and the parser
behind the line. -/
def round (s : Parser) : Option SourceFault × Parser :=
  if s.cursor.current.kind = .invalid then (none, { s with cursor := s.cursor.recover })
  else
    match s.cursor.readLine.result with
    | .ok i =>
      (none, { s with
        cursor := s.cursor.readLine.cursor.skipNewlines
        program := s.program ++ [i]
        sawExit := s.sawExit || i.opcode == .exit })
    | .error .reported => (none, { s with cursor := s.cursor.readLine.cursor.recover })
    | .error (.fault fault) =>
      match s.report.add fault with
      | .ok report => (none, { s with cursor := s.cursor.readLine.cursor.recover, report })
      | .error fault => (some fault, { s with cursor := s.cursor.readLine.cursor })

/-- What the parser returns at an end marker: a program without `exit` is faulty. -/
def finish (s : Parser) : Except SourceFault (Program × Report) :=
  if s.sawExit then .ok (s.program, s.report)
  else do
    let report ← s.report.add .missingExit
    return (s.program, report)

/-- What the parser returns within `n` rounds, `none` if it does not return by then. -/
def runFor (n : Nat) (s : Parser) : Option (Except SourceFault (Program × Report)) :=
  if s.cursor.current.isEnd then some s.finish
  else
    match n with
    | 0 => none
    | n + 1 =>
      match s.round with
      | (some fault, _) => some (.error fault)
      | (none, s') => runFor n s'

/-- The parsers that are reached, round by round, by a parser that goes on as long as it is not on
an end marker. -/
inductive Reaches (s : Parser) : Parser → Prop where
  | refl : Reaches s s
  | round (s' : Parser) (h : Reaches s s') (hend : s'.cursor.current.isEnd = false)
      (hgoes : s'.round.1 = none) : Reaches s s'.round.2

/-- **What a round can do.** -/
inductive Rounds (s : Parser) : Option SourceFault × Parser → Prop where
  | skipped (h : s.cursor.current.kind = .invalid) :
      Rounds s (none, { s with cursor := s.cursor.recover })
  | read (i : Instruction) (h : s.cursor.readLine.result = .ok i) :
      Rounds s (none, { s with
        cursor := s.cursor.readLine.cursor.skipNewlines
        program := s.program ++ [i]
        sawExit := s.sawExit || i.opcode == .exit })
  | reported (h : s.cursor.readLine.result = .error .reported) :
      Rounds s (none, { s with cursor := s.cursor.readLine.cursor.recover })
  | recorded (fault : SourceFault) (report : Report)
      (h : s.cursor.readLine.result = .error (.fault fault))
      (hadd : s.report.add fault = .ok report) :
      Rounds s (none, { s with cursor := s.cursor.readLine.cursor.recover, report := report })
  | refused (fault fault' : SourceFault) (h : s.cursor.readLine.result = .error (.fault fault))
      (hadd : s.report.add fault = .error fault') :
      Rounds s (some fault', { s with cursor := s.cursor.readLine.cursor })

/-- A round does one of these things. -/
theorem rounds_round (s : Parser) : Rounds s s.round := by
  unfold round
  split
  · exact .skipped ‹_›
  · split
    · exact .read _ ‹_›
    · exact .reported ‹_›
    · split
      · exact .recorded _ _ ‹_› ‹_›
      · exact .refused _ _ ‹_› ‹_›

/-! ## Progress -/

variable {s : Parser} {next : Option SourceFault × Parser}

/-- A round moves the cursor, and never past an end marker. -/
theorem Rounds.moves (h : Rounds s next) : s.cursor.Moves next.2.cursor := by
  have hread := s.cursor.readLine_agrees.1.moves
  cases h with
  | skipped h => exact s.cursor.moves_recover
  | read i h => exact hread.trans (Cursor.moves_skipNewlines _)
  | reported h => exact hread.trans (Cursor.moves_recover _)
  | recorded fault report h hadd => exact hread.trans (Cursor.moves_recover _)
  | refused fault fault' h hadd => exact hread

/-- **Every round after which the parser goes on brings the cursor forward.** -/
theorem Rounds.pos_lt (h : Rounds s next) (hend : s.cursor.current.isEnd = false)
    (hgoes : next.1 = none) : s.cursor.pos < next.2.cursor.pos := by
  -- a line that failed without moving the cursor is left by recovering
  have hrecover : s.cursor.pos < s.cursor.readLine.cursor.recover.pos := by
    obtain heq | hlt := s.cursor.readLine_agrees.1.moves.eq_or_pos_lt
    · rw [← heq]
      exact s.cursor.pos_lt_recover hend
    · exact Nat.lt_of_lt_of_le hlt (Cursor.moves_recover _).le_pos
  cases h with
  | skipped h => exact s.cursor.pos_lt_recover hend
  | read i h =>
    exact Nat.lt_of_lt_of_le (s.cursor.readLine_ok i h).1 (Cursor.moves_skipNewlines _).le_pos
  | reported h => exact hrecover
  | recorded fault report h hadd => exact hrecover
  | refused fault fault' h hadd => cases hgoes

/-- No round that goes on leaves the cursor on a newline. -/
theorem Rounds.not_newline (h : Rounds s next) (hgoes : next.1 = none) :
    next.2.cursor.current.isNewline = false := by
  cases h with
  | skipped | read | reported | recorded => exact Cursor.not_current_skipWhile _ _ _
  | refused => cases hgoes

/-- **The cursor never passes the first end marker** in any parser that is reached. -/
theorem Reaches.pos_le {tokens : List Token} {report : Report}
    (h : (start tokens report).Reaches s) :
    s.cursor.tokens = tokens ∧ s.cursor.pos ≤ tokens.findIdx Token.isEnd := by
  induction h with
  | refl =>
    have hmoves := (Cursor.mk tokens 0).moves_skipNewlines
    have hle := hmoves.pos_le (Nat.zero_le _)
    rw [hmoves.tokens_eq] at hle
    exact ⟨hmoves.tokens_eq, hle⟩
  | round s' h hend hgoes ih =>
    obtain ⟨rfl, hle⟩ := ih
    have hmoves := s'.rounds_round.moves
    rw [← hmoves.tokens_eq]
    exact ⟨rfl, hmoves.pos_le hle⟩

/-! ## The program of the tokens -/

/-- What the parser returns, told from the tokens that remain. -/
def foretold (s : Parser) : Except SourceFault (Program × Report) :=
  s.report.outcome (s.program ++ (Program.linesRead s.cursor.remaining).1)
    ((Program.linesRead s.cursor.remaining).2 ++
      if s.sawExit || (Program.linesRead s.cursor.remaining).1.hasExit then [] else [.missingExit])

/-- From the start, that is the program of the tokens. -/
theorem foretold_start (tokens : List Token) (report : Report) :
    (start tokens report).foretold = Program.ofTokens tokens report := by
  have hlines : Program.linesRead (start tokens report).cursor.remaining =
      Program.linesRead tokens := (Cursor.mk tokens 0).linesRead_skipNewlines
  rw [Program.ofTokens_eq_outcome, Program.parseFaults, foretold, hlines]
  rfl

/-- On an end marker, the parser returns it. -/
theorem foretold_of_isEnd (h : s.cursor.current.isEnd = true) : s.foretold = s.finish := by
  have hlines : Program.linesRead s.cursor.remaining = ([], []) := by
    apply Program.linesRead_of_head_isEnd
    intro t ht
    rw [Cursor.current_eq_headD, List.headD_eq_head?_getD, ht] at h
    exact h
  rw [foretold, hlines, finish, List.append_nil]
  cases s.sawExit with
  | true => exact Report.outcome_nil _ _
  | false => exact (Report.add_bind _ _ _ [] _ fun r => (Report.outcome_nil r _).symm).symm

/-- **A round returns what was foretold, or leaves it as it was.** -/
theorem Rounds.foretold (h : Rounds s next) (hend : s.cursor.current.isEnd = false)
    (hnewline : s.cursor.current.isNewline = false) :
    (∃ fault, next.1 = some fault ∧ s.foretold = .error fault) ∨
      (next.1 = none ∧ s.foretold = next.2.foretold) := by
  obtain ⟨hpasses, hread⟩ := s.cursor.readLine_agrees
  obtain ⟨hok, hreported, hfault⟩ := Cursor.linesRead_remaining hend hnewline
  have hrecover : Program.linesRead s.cursor.readLine.cursor.recover.remaining =
      Program.linesRead s.cursor.later := by
    rw [Cursor.linesRead_recover, hpasses.later_eq]
  -- a fault is added in front of those of the later lines
  have hadded : ∀ fault, s.cursor.readLine.result = .error (.fault fault) →
      s.foretold = (s.report.add fault >>= fun report => Parser.foretold
        { s with cursor := s.cursor.readLine.cursor.recover, report := report }) := by
    intro fault h
    rw [Parser.foretold, hfault fault (hread.trans h)]
    refine (Report.add_bind _ _ _ _ _ fun report => ?_).symm
    rw [Parser.foretold, hrecover]
    rfl
  cases h with
  | skipped h =>
    have hfinished : s.cursor.isFinished = true := by simp [Cursor.isFinished, h]
    refine .inr ⟨rfl, ?_⟩
    rw [Parser.foretold, Parser.foretold, Cursor.linesRead_recover,
      Cursor.linesRead_of_isFinished hfinished]
  | read i h =>
    have hlater : Program.linesRead s.cursor.readLine.cursor.skipNewlines.remaining =
        Program.linesRead s.cursor.later := by
      rw [Cursor.linesRead_skipNewlines,
        Cursor.linesRead_of_isFinished (s.cursor.readLine_ok i h).2, hpasses.later_eq]
    refine .inr ⟨rfl, ?_⟩
    rw [Parser.foretold, Parser.foretold, hok i (hread.trans h), hlater, List.append_assoc,
      Bool.or_assoc]
    rfl
  | reported h =>
    refine .inr ⟨rfl, ?_⟩
    rw [Parser.foretold, Parser.foretold, hreported (hread.trans h), hrecover]
  | recorded fault report h hadd =>
    refine .inr ⟨rfl, ?_⟩
    rw [hadded fault h, hadd]
    rfl
  | refused fault fault' h hadd =>
    refine .inl ⟨fault', rfl, ?_⟩
    rw [hadded fault h, hadd]
    rfl

/-- **The parser returns what was foretold** within as many rounds as there are tokens from the
cursor to the first end marker. -/
theorem runFor_eq_foretold (n : Nat) (s : Parser)
    (hle : s.cursor.pos ≤ s.cursor.tokens.findIdx Token.isEnd)
    (hnewline : s.cursor.current.isNewline = false)
    (hn : s.cursor.tokens.findIdx Token.isEnd ≤ s.cursor.pos + n) :
    s.runFor n = some s.foretold := by
  induction n generalizing s with
  | zero =>
    cases hend : s.cursor.current.isEnd with
    | true => rw [runFor, if_pos hend, foretold_of_isEnd hend]
    | false =>
      have hlt := Cursor.pos_lt_findIdx hend hle
      omega
  | succ n ih =>
    cases hend : s.cursor.current.isEnd with
    | true => rw [runFor, if_pos hend, foretold_of_isEnd hend]
    | false =>
      rw [runFor, if_neg (Bool.eq_false_iff.1 hend)]
      have hround := s.rounds_round
      cases hnext : s.round with
      | mk fault? s' =>
        rw [hnext] at hround
        obtain ⟨fault, rfl, hforetold⟩ | ⟨rfl, hforetold⟩ := hround.foretold hend hnewline
        · exact congrArg some hforetold.symm
        · -- the cursor is closer to the end marker by at least one token
          have hlt : s.cursor.pos < s'.cursor.pos := hround.pos_lt hend rfl
          have htokens : s'.cursor.tokens = s.cursor.tokens := hround.moves.tokens_eq
          rw [hforetold]
          refine ih s' (hround.moves.pos_le hle) (hround.not_newline rfl) ?_
          rw [htokens]
          omega

/-! ## The parser returns -/

/-- **The parser always makes progress.** Whatever the tokens and whatever has been reported: no
move of the cursor passes the first end marker, or the last token where there is none; in every
parser that is reached the cursor has not passed it, nor has it behind the next round, also one with
which the parser returns; a round after which the parser goes on brings the cursor forward. So the
parser returns, after no more rounds than there are tokens in front of the first end marker, and
what it returns is the program of the tokens. Where faults are collected, this is never a
failure. -/
theorem rounds_make_progress (tokens : List Token) (report : Report) :
    (∀ pos ≤ tokens.findIdx Token.isEnd,
        (Cursor.mk tokens pos).advance.pos ≤ tokens.findIdx Token.isEnd) ∧
      (∀ s, (start tokens report).Reaches s →
        s.cursor.tokens = tokens ∧ s.cursor.pos ≤ tokens.findIdx Token.isEnd ∧
          (s.cursor.current.isEnd = false →
            s.round.2.cursor.pos ≤ tokens.findIdx Token.isEnd ∧
              (s.round.1 = none → s.cursor.pos < s.round.2.cursor.pos))) ∧
      (∀ n, tokens.findIdx Token.isEnd ≤ n →
        (start tokens report).runFor n = some (Program.ofTokens tokens report)) ∧
      (report.policy = .collect → ∃ p faults,
        Program.ofTokens tokens report = .ok (p, ⟨.collect, report.faults ++ faults⟩)) := by
  refine ⟨?_, ?_, ?_, ?_⟩
  · intro pos hle
    cases hend : (Cursor.mk tokens pos).current.isEnd with
    | true => rwa [Cursor.advance, if_pos hend]
    | false =>
      rw [Cursor.advance_eq hend]
      exact Cursor.pos_lt_findIdx hend hle
  · intro s hs
    obtain ⟨rfl, hle⟩ := hs.pos_le
    have hround := s.rounds_round
    have hlater := hround.moves.pos_le hle
    rw [hround.moves.tokens_eq] at hlater
    exact ⟨rfl, hle, fun hend => ⟨hlater, hround.pos_lt hend⟩⟩
  · intro n hn
    obtain ⟨htokens, hle⟩ := (Reaches.refl (s := start tokens report)).pos_le
    rw [← foretold_start]
    refine runFor_eq_foretold n _ (htokens.symm ▸ hle) (Cursor.not_current_skipWhile _ _ _) ?_
    rw [htokens]
    omega
  · intro hpolicy
    obtain ⟨policy, faults⟩ := report
    obtain rfl := hpolicy
    exact ⟨_, _, Program.ofTokens_eq_outcome tokens _⟩

/-- A line with nothing but a comment on it, which no text has, since comments become no tokens.
Reading it fails without a move, and recovering leads to the end marker; the token behind that is
not looked at. -/
theorem rounds_make_progress_comment :
    ∃ (tokens : List Token) (s : Parser),
      tokens.map Token.kind = [.newline, .comment, .newline, .endOfFile, .invalid] ∧
      s = start tokens { policy := .collect } ∧ s.cursor.current.isEnd = false ∧
      s.cursor.readLine.cursor.pos = s.cursor.pos ∧ s.round.1 = none ∧
      s.cursor.pos < s.round.2.cursor.pos ∧ s.round.2.cursor.pos = 3 ∧
      s.runFor 3 = some (Program.ofTokens tokens { policy := .collect }) := by
  let tokens : List Token := [⟨.newline, "\n", ⟨1, 1⟩⟩, ⟨.comment, ";", ⟨2, 1⟩⟩,
    ⟨.newline, "\n", ⟨2, 2⟩⟩, ⟨.endOfFile, "", ⟨3, 1⟩⟩, ⟨.invalid, "?", ⟨3, 1⟩⟩]
  obtain ⟨-, hreached, hruns, -⟩ := rounds_make_progress tokens { policy := .collect }
  have hend : (start tokens { policy := .collect }).cursor.current.isEnd = false := by
    decide +kernel
  have hgoes : (start tokens { policy := .collect }).round.1 = none := by decide +kernel
  have hlt := ((hreached _ .refl).2.2 hend).2 hgoes
  exact ⟨tokens, _, rfl, rfl, hend, by decide +kernel, hgoes, hlt, by decide +kernel,
    hruns 3 (by decide)⟩

end Parser

end NumStack
