import Mathlib.Data.List.TakeWhile
import NumStack.Proofs.Lines
import NumStack.Proofs.Outcome

/-!
# The grammar of a program

The tokens before the first end marker derive the statements of a program:

    program := newline* (instruction (newline+ | END))* END

Parsing accepts exactly the token lists that derive statements whose literals all denote operands,
one of which is an `exit`, and the program is the list of their instructions. What stands behind the
first end marker is never looked at.
-/

namespace NumStack

namespace Grammar

/-! ## Derivations -/

/-- Instructions, each ended by newlines or by the end of the tokens. -/
inductive Lines : List Token → List Statement → Prop where
  | done : Lines [] []
  | last (ts : List Token) (s : Statement) (h : Instruction ts s) : Lines ts [s]
  | line (ts : List Token) (s : Statement) (newlines rest : List Token) (ss : List Statement)
      (h : Instruction ts s) (hne : newlines ≠ [])
      (hnewlines : ∀ t ∈ newlines, t.isNewline = true) (hrest : Lines rest ss) :
      Lines (ts ++ (newlines ++ rest)) (s :: ss)

/-- Newlines, and then instructions. -/
inductive Program : List Token → List Statement → Prop where
  | mk (newlines rest : List Token) (ss : List Statement)
      (hnewlines : ∀ t ∈ newlines, t.isNewline = true) (hrest : Lines rest ss) :
      Program (newlines ++ rest) ss

end Grammar

namespace Token

/-- The tokens before the first end marker. -/
def beforeEnd (tokens : List Token) : List Token := tokens.takeWhile fun t => !t.isEnd

theorem isEnd_of_isNewline (t : Token) (h : t.isNewline = true) : t.isEnd = false := by
  have hk : t.kind = .newline := by simpa [isNewline] using h
  simp [isEnd, hk]

theorem inLine_of_isNewline (t : Token) (h : t.isNewline = true) : t.inLine = false := by
  simp [inLine, h]

theorem inLine_of_isEnd (t : Token) (h : t.isEnd = true) : t.inLine = false := by
  simp [inLine, h]

theorem isEnd_of_inLine (t : Token) (h : t.inLine = true) : t.isEnd = false := by
  cases hend : t.isEnd with
  | false => rfl
  | true =>
    rw [inLine_of_isEnd t hend] at h
    cases h

theorem isNewline_of_inLine (t : Token) (h : t.inLine = true) : t.isNewline = false := by
  cases hnewline : t.isNewline with
  | false => rfl
  | true =>
    rw [inLine_of_isNewline t hnewline] at h
    cases h

/-- What precedes the first end marker may be cut off in front. -/
theorem beforeEnd_append (ts rest : List Token) (h : ∀ t ∈ ts, t.isEnd = false) :
    beforeEnd (ts ++ rest) = ts ++ beforeEnd rest := by
  unfold beforeEnd
  apply List.takeWhile_append_of_pos
  intro t ht
  rw [h t ht]
  rfl

theorem beforeEnd_of_head_isEnd (tokens : List Token) (h : ∀ t ∈ tokens.head?, t.isEnd = true) :
    beforeEnd tokens = [] := by
  cases tokens with
  | nil => rfl
  | cons t tail => simp [beforeEnd, h t rfl]

/-- The newlines in front are among the tokens before the first end marker. -/
theorem beforeEnd_eq_newlines_append (tokens : List Token) :
    beforeEnd tokens =
      tokens.takeWhile isNewline ++ beforeEnd (tokens.dropWhile isNewline) := by
  have hnewlines : ∀ t ∈ tokens.takeWhile isNewline, t.isEnd = false := by
    intro t ht
    exact t.isEnd_of_isNewline (List.all_eq_true.1 List.all_takeWhile t ht)
  rw [← beforeEnd_append _ _ hnewlines, List.takeWhile_append_dropWhile]

/-- So is the first line. -/
theorem beforeEnd_eq_line_append (tokens : List Token) :
    beforeEnd tokens =
      (Line.first tokens).tokens ++ beforeEnd (tokens.dropWhile inLine) := by
  have hline : ∀ t ∈ (Line.first tokens).tokens, t.isEnd = false := by
    intro t ht
    exact t.isEnd_of_inLine (Line.inLine_of_mem_first tokens t ht)
  rw [← beforeEnd_append _ _ hline]
  exact congrArg beforeEnd List.takeWhile_append_dropWhile.symm

theorem rest_suffix {tokens : List Token} {t : Token} {tail : List Token}
    (h : tokens.dropWhile isNewline = t :: tail) : tail.dropWhile inLine <:+ tokens := by
  have htail : t :: tail <:+ tokens := h ▸ List.dropWhile_suffix isNewline
  exact ((List.dropWhile_suffix inLine).trans (List.suffix_cons t tail)).trans htail

end Token

namespace Grammar

/-- An instruction has tokens, all of one line. -/
theorem Instruction.inLine {ts : List Token} {s : Statement} (h : Instruction ts s) :
    ts ≠ [] ∧ ∀ t ∈ ts, t.inLine = true := by
  have hargument : ∀ {ts : List Token} {n : Token}, Argument ts n → ∀ t ∈ ts, t.inLine = true := by
    intro ts n harg
    cases harg with
    | bare n hn => simpa using n.inLine_of_isNumber hn
    | enclosed l n r hl hn hr =>
      simp only [List.mem_cons, List.not_mem_nil, or_false, forall_eq_or_imp, forall_eq]
      refine ⟨?_, n.inLine_of_isNumber hn, ?_⟩
      · exact l.inLine_of_kind _ hl rfl
      · exact r.inLine_of_kind _ hr rfl
  cases h with
  | simple t o ht ho =>
    refine ⟨by simp, ?_⟩
    simpa using t.inLine_of_kind _ ht rfl
  | valued t o ts kind literal ht ho hvalue =>
    refine ⟨by simp, ?_⟩
    cases hvalue with
    | mk k kind ts n hk harg =>
      simp only [List.mem_cons, forall_eq_or_imp]
      refine ⟨?_, ?_, hargument harg⟩
      · exact t.inLine_of_kind _ ht rfl
      · exact k.inLine_of_kind _ hk rfl

theorem Lines.eq_nil {ts : List Token} {ss : List Statement} (h : Lines ts ss) (hts : ts = []) :
    ss = [] := by
  cases h with
  | done => rfl
  | last ts s h => exact absurd hts h.inLine.1
  | line ts s newlines rest ss h hne hnewlines hrest =>
    exact absurd (List.append_eq_nil_iff.1 hts).1 h.inLine.1

/-- An instruction in front of lines, where newlines or an end marker stand between them. -/
theorem Lines.cons {ts rest : List Token} {s : Statement} {ss : List Statement}
    (h : Instruction ts s) (hstop : ∀ t ∈ rest.head?, t.inLine = false)
    (hrest : Lines (Token.beforeEnd (rest.dropWhile Token.isNewline)) ss) :
    Lines (ts ++ Token.beforeEnd rest) (s :: ss) := by
  by_cases hnil : rest.takeWhile Token.isNewline = []
  · -- no newline stops the instruction, so an end marker does
    have hend : ∀ t ∈ rest.head?, t.isEnd = true := by
      intro t ht
      have hnewline : t.isNewline = false := by
        cases rest with
        | nil => cases ht
        | cons t' tail =>
          cases ht
          simpa [List.takeWhile_cons] using hnil
      simpa [Token.inLine, hnewline] using hstop t ht
    have hbefore := Token.beforeEnd_of_head_isEnd rest hend
    have hnone : Token.beforeEnd (rest.dropWhile Token.isNewline) = [] := by
      rwa [Token.beforeEnd_eq_newlines_append, hnil, List.nil_append] at hbefore
    rw [hrest.eq_nil hnone, hbefore, List.append_nil]
    exact .last ts s h
  · rw [Token.beforeEnd_eq_newlines_append rest]
    exact .line ts s _ _ ss h hnil (List.all_eq_true.1 List.all_takeWhile) hrest

end Grammar

namespace Program

/-! ## Soundness -/

theorem isNewline_of_dropWhile_eq_cons (tokens : List Token) (t : Token) (tail : List Token)
    (h : tokens.dropWhile Token.isNewline = t :: tail) : t.isNewline = false := by
  have hhead := List.head?_dropWhile_not Token.isNewline tokens
  rw [h] at hhead
  simpa using hhead

theorem inLine_of_head_dropWhile (tokens : List Token) :
    ∀ t ∈ (tokens.dropWhile Token.inLine).head?, t.inLine = false := by
  intro t ht
  have hhead := List.head?_dropWhile_not Token.inLine tokens
  rw [Option.mem_def.1 ht] at hhead
  simpa using hhead

/-- **Soundness.** Lines read without a fault derive the statements of their instructions. -/
theorem linesRead_sound (tokens : List Token)
    (hvalid : ∀ t ∈ Token.beforeEnd tokens, t.kind ≠ .invalid)
    (hfaults : (linesRead tokens).2 = []) :
    ∃ ss, Grammar.Lines (Token.beforeEnd (tokens.dropWhile Token.isNewline)) ss ∧
      ss.map Statement.instruction? = (linesRead tokens).1.map some := by
  fun_induction linesRead tokens with
  | case1 tokens hnil =>
    rw [hnil]
    exact ⟨[], .done, rfl⟩
  | case2 tokens t tail hcons hend =>
    rw [hcons, Token.beforeEnd_of_head_isEnd (t :: tail) (by simpa using hend)]
    exact ⟨[], .done, rfl⟩
  | case3 tokens t tail hcons hend after i hread ih =>
    have hline : t.inLine = true := by
      simp [Token.inLine, isNewline_of_dropWhile_eq_cons tokens t tail hcons, hend]
    have hsplit : Token.beforeEnd (t :: tail) =
        (Line.first (t :: tail)).tokens ++ Token.beforeEnd (tail.dropWhile Token.inLine) := by
      rw [Token.beforeEnd_eq_line_append, List.dropWhile_cons_of_pos hline]
    rw [Token.beforeEnd_eq_newlines_append, hcons, hsplit] at hvalid
    obtain ⟨s, hs, hi⟩ := Line.read_sound _ (Line.first_stop_inLine _)
      (fun t' ht' => ⟨Line.inLine_of_mem_first _ t' ht', hvalid t' (by simp [ht'])⟩) i hread
    obtain ⟨ss, hss, hmap⟩ := ih (fun t' ht' => hvalid t' (by simp [ht'])) hfaults
    refine ⟨s :: ss, ?_, by simp [hi, hmap, after]⟩
    rw [hcons, hsplit]
    exact .cons hs (inLine_of_head_dropWhile tail) hss
  | case4 tokens t tail hcons hend after hread ih =>
    -- a line was dropped for an invalid token, of which there is none
    exfalso
    obtain ⟨t', hmem | hstop, hinvalid⟩ :=
      Line.read_failsWith _ (Line.first_stop_inLine _) _ hread
    · apply hvalid t' _ hinvalid
      rw [Token.beforeEnd_eq_newlines_append, hcons, Token.beforeEnd_eq_line_append]
      simp [hmem]
    · have hout := Line.first_stop_inLine (t :: tail)
      rw [← hstop, t'.inLine_of_kind .invalid hinvalid rfl] at hout
      cases hout
  | case5 tokens t tail hcons hend after fault hread ih => cases hfaults

/-! ## Completeness -/

/-- Newlines in front of the lines do not matter. -/
theorem linesRead_newlines_append (newlines rest : List Token)
    (h : ∀ t ∈ newlines, t.isNewline = true) : linesRead (newlines ++ rest) = linesRead rest := by
  have hdrop : (newlines ++ rest).dropWhile Token.isNewline = rest.dropWhile Token.isNewline :=
    List.dropWhile_append_of_pos h
  cases hrest : rest.dropWhile Token.isNewline with
  | nil =>
    rw [linesRead_of_dropWhile_eq_nil rest hrest,
      linesRead_of_dropWhile_eq_nil _ (hdrop.trans hrest)]
  | cons t tail =>
    rw [linesRead_of_dropWhile_eq_cons rest t tail hrest,
      linesRead_of_dropWhile_eq_cons _ t tail (hdrop.trans hrest)]

theorem linesRead_dropWhile_newline (tokens : List Token) :
    linesRead (tokens.dropWhile Token.isNewline) = linesRead tokens := by
  have h := linesRead_newlines_append (tokens.takeWhile Token.isNewline)
    (tokens.dropWhile Token.isNewline) (List.all_eq_true.1 List.all_takeWhile)
  rw [← h, List.takeWhile_append_dropWhile]

/-- An end marker ends the lines. -/
theorem linesRead_of_head_isEnd (tokens : List Token) (h : ∀ t ∈ tokens.head?, t.isEnd = true) :
    linesRead tokens = ([], []) := by
  cases tokens with
  | nil => exact linesRead_of_dropWhile_eq_nil [] rfl
  | cons t tail =>
    have hend := h t rfl
    have hnewline : t.isNewline = false := by
      cases hnl : t.isNewline with
      | false => rfl
      | true => rw [t.isEnd_of_isNewline hnl] at hend; cases hend
    rw [linesRead_of_dropWhile_eq_cons (t :: tail) t tail (by simp [hnewline]), if_pos hend]

/-- One line in front of the others. -/
theorem linesRead_line_append (ts rest : List Token) (hne : ts ≠ [])
    (hts : ∀ t ∈ ts, t.inLine = true) (hrest : ∀ t ∈ rest.head?, t.inLine = false)
    (i : Instruction) (hread : (Line.mk ts (rest.headD Token.missingEnd)).read = .ok i) :
    linesRead (ts ++ rest) = (i :: (linesRead rest).1, (linesRead rest).2) := by
  obtain ⟨htake, hdrop⟩ := run_append_stop Token.inLine ts rest hts hrest
  have hfirst : Line.first (ts ++ rest) = ⟨ts, rest.headD Token.missingEnd⟩ := by
    rw [Line.first, htake, hdrop]
  cases ts with
  | nil => exact absurd rfl hne
  | cons t ts =>
    have ht := hts t List.mem_cons_self
    rw [List.cons_append, List.dropWhile_cons_of_pos ht] at hdrop
    rw [List.cons_append] at hfirst
    rw [List.cons_append, linesRead_of_dropWhile_eq_cons (t :: (ts ++ rest)) t (ts ++ rest)
      (by simp [t.isNewline_of_inLine ht]), if_neg (by simp [t.isEnd_of_inLine ht]), hfirst, hread,
      hdrop]

/-- **Completeness.** Derived lines are read as the instructions of their statements, whatever
stands behind the end marker. -/
theorem linesRead_complete (ts : List Token) (ss : List Statement) (h : Grammar.Lines ts ss)
    (p : Program) (hp : ss.map Statement.instruction? = p.map some) (tail : List Token)
    (htail : ∀ t ∈ tail.head?, t.isEnd = true) : linesRead (ts ++ tail) = (p, []) := by
  have hout : ∀ t ∈ tail.head?, t.inLine = false := fun t ht => t.inLine_of_isEnd (htail t ht)
  induction h generalizing p with
  | done =>
    obtain rfl := List.map_eq_nil_iff.1 hp.symm
    exact linesRead_of_head_isEnd tail htail
  | last ts s h =>
    obtain ⟨i, p, rfl, hi, hp⟩ := List.map_eq_cons_iff.1 hp.symm
    obtain rfl := List.map_eq_nil_iff.1 hp
    have hread := Line.read_complete ts s h i hi.symm (tail.headD Token.missingEnd) <| by
      cases tail with
      | nil => rfl
      | cons t tail => exact hout t rfl
    rw [linesRead_line_append ts tail h.inLine.1 h.inLine.2 hout i hread,
      linesRead_of_head_isEnd tail htail]
  | line ts s newlines rest ss h hne hnewlines hrest ih =>
    obtain ⟨i, p, rfl, hi, hp⟩ := List.map_eq_cons_iff.1 hp.symm
    obtain ⟨n, more, rfl⟩ := List.exists_cons_of_ne_nil hne
    have hn : n.inLine = false := n.inLine_of_isNewline (hnewlines n List.mem_cons_self)
    rw [List.append_assoc, List.append_assoc, linesRead_line_append ts (n :: more ++ (rest ++ tail))
      h.inLine.1 h.inLine.2 (by simpa using hn) i (Line.read_complete ts s h i hi.symm n hn),
      linesRead_newlines_append _ _ hnewlines, ih p hp.symm]

/-- A derived program is read as the instructions of its statements. -/
theorem linesRead_of_program (tokens : List Token) (ss : List Statement)
    (h : Grammar.Program (Token.beforeEnd tokens) ss) (p : Program)
    (hp : ss.map Statement.instruction? = p.map some) : linesRead tokens = (p, []) := by
  have hsplit : Token.beforeEnd tokens ++ tokens.dropWhile (fun t => !t.isEnd) = tokens :=
    List.takeWhile_append_dropWhile
  have htail : ∀ t ∈ (tokens.dropWhile fun t => !t.isEnd).head?, t.isEnd = true := by
    intro t ht
    have hhead := List.head?_dropWhile_not (fun t : Token => !t.isEnd) tokens
    rw [Option.mem_def.1 ht] at hhead
    simpa using hhead
  generalize Token.beforeEnd tokens = ts at h hsplit
  cases h with
  | mk newlines rest ss hnewlines hrest =>
    rw [← hsplit, List.append_assoc, linesRead_newlines_append _ _ hnewlines]
    exact linesRead_complete rest ss hrest p hp _ htail

/-! ## Behind the end marker -/

/-- The lines behind one that is stopped by a token keep that token and what stands behind it. -/
theorem dropWhile_append_stop (tokens : List Token) (e : Token) (he : e.inLine = false)
    (post : List Token) :
    (tokens ++ e :: post).dropWhile Token.inLine = tokens.dropWhile Token.inLine ++ e :: post := by
  induction tokens with
  | nil => simp [he]
  | cons t tail ih =>
    by_cases ht : t.inLine = true
    · simpa [ht] using ih
    · simp [ht]

/-- The first line depends only on what stands before a token that stops it. -/
theorem first_append_stop (tokens : List Token) (e : Token) (he : e.inLine = false)
    (post : List Token) :
    Line.first (tokens ++ e :: post) =
      ⟨tokens.takeWhile Token.inLine, (tokens.dropWhile Token.inLine).headD e⟩ := by
  have htake : (tokens ++ e :: post).takeWhile Token.inLine = tokens.takeWhile Token.inLine := by
    induction tokens with
    | nil => simp [he]
    | cons t tail ih =>
      by_cases ht : t.inLine = true
      · simpa [ht] using ih
      · simp [ht]
  rw [Line.first, htake, dropWhile_append_stop tokens e he]
  cases tokens.dropWhile Token.inLine <;> rfl

/-- **The end marker is the end.** The lines do not depend on what stands behind it. -/
theorem linesRead_append_end (tokens : List Token) (e : Token) (he : e.isEnd = true)
    (post : List Token) : linesRead (tokens ++ e :: post) = linesRead (tokens ++ [e]) := by
  have hout := e.inLine_of_isEnd he
  induction hlen : tokens.length using Nat.strongRecOn generalizing tokens with
  | ind n ih =>
    cases hdrop : tokens.dropWhile Token.isNewline with
    | nil =>
      have hnewlines := List.dropWhile_eq_nil_iff.1 hdrop
      rw [linesRead_newlines_append _ _ hnewlines, linesRead_newlines_append _ _ hnewlines,
        linesRead_of_head_isEnd _ (by simpa using he),
        linesRead_of_head_isEnd _ (by simpa using he)]
    | cons t tail =>
      have hdrop' : ∀ post, (tokens ++ e :: post).dropWhile Token.isNewline =
          t :: (tail ++ e :: post) := by
        intro post
        simp [List.dropWhile_append, hdrop]
      -- both lists start with the same line, and are shorter behind it
      rw [linesRead_of_dropWhile_eq_cons _ _ _ (hdrop' post),
        linesRead_of_dropWhile_eq_cons _ _ _ (hdrop' []), dropWhile_append_stop tail e hout post,
        dropWhile_append_stop tail e hout [], ← List.cons_append, ← List.cons_append,
        first_append_stop (t :: tail) e hout post, first_append_stop (t :: tail) e hout [],
        ih _ _ (tail.dropWhile Token.inLine) rfl]
      have hle := (List.dropWhile_suffix Token.isNewline (l := tokens)).length_le
      have hle' := (List.dropWhile_suffix Token.inLine (l := tail)).length_le
      rw [hdrop, List.length_cons] at hle
      omega

/-! ## Parsing -/

/-- **Parsing accepts exactly the grammar.** Unless there are invalid tokens, a program is parsed
exactly if the tokens before the first end marker derive statements whose literals denote operands
and one of which is an `exit`; the program is the list of their instructions. Under either policy,
what stands behind an end marker does not matter. -/
theorem ofTokens_accepts_grammar (tokens : List Token) :
    ((∀ t ∈ Token.beforeEnd tokens, t.kind ≠ .invalid) → ∀ p report,
      ofTokens tokens { policy := .failFast } = .ok (p, report) ↔
        report = { policy := .failFast } ∧ p.hasExit = true ∧
          ∃ ss, Grammar.Program (Token.beforeEnd tokens) ss ∧
            ss.map Statement.instruction? = p.map some) ∧
      ∀ (e : Token) (post : List Token) (report : Report), e.isEnd = true →
        ofTokens (tokens ++ e :: post) report = ofTokens (tokens ++ [e]) report := by
  refine ⟨?_, ?_⟩
  · intro hvalid p report
    rw [ofTokens_eq_outcome, Report.outcome_failFast_eq_ok_iff, parseFaults_eq_nil_iff]
    constructor
    · rintro ⟨⟨hfaults, hexit⟩, rfl, rfl⟩
      obtain ⟨ss, hss, hp⟩ := linesRead_sound tokens hvalid hfaults
      refine ⟨rfl, hexit, ss, ?_, hp⟩
      rw [Token.beforeEnd_eq_newlines_append]
      exact .mk _ _ ss (List.all_eq_true.1 List.all_takeWhile) hss
    · rintro ⟨rfl, hexit, ss, hss, hp⟩
      have hread := linesRead_of_program tokens ss hss p hp
      rw [hread]
      exact ⟨⟨rfl, hexit⟩, rfl, rfl⟩
  · intro e post report he
    rw [ofTokens_eq_outcome, ofTokens_eq_outcome, parseFaults, parseFaults,
      linesRead_append_end tokens e he post]

/-- A blank line, a value in parentheses, two newlines in a row and a last instruction that the end
marker ends; the invalid token behind the end marker is not looked at. -/
theorem ofTokens_accepts_grammar_push_exit :
    ∃ tokens : List Token,
      tokens.map Token.kind = [.newline, .opcode .push, .type .int8, .leftParen, .integer,
        .rightParen, .newline, .newline, .opcode .exit, .endOfFile, .invalid] ∧
      (∀ t ∈ Token.beforeEnd tokens, t.kind ≠ .invalid) ∧
      ofTokens tokens { policy := .failFast } =
        .ok ([.push (.int8 (-7)), .exit], { policy := .failFast }) := by
  let newline : Token := ⟨.newline, "\n", ⟨1, 1⟩⟩
  let value : List Token := [⟨.type .int8, "int8", ⟨2, 6⟩⟩, ⟨.leftParen, "(", ⟨2, 10⟩⟩,
    ⟨.integer, "-7", ⟨2, 11⟩⟩, ⟨.rightParen, ")", ⟨2, 13⟩⟩]
  let tokens : List Token := newline :: ⟨.opcode .push, "push", ⟨2, 1⟩⟩ :: value ++
    [newline, newline, ⟨.opcode .exit, "exit", ⟨4, 1⟩⟩, ⟨.endOfFile, "", ⟨4, 5⟩⟩,
      ⟨.invalid, "?", ⟨4, 6⟩⟩]
  have hvalid : ∀ t ∈ Token.beforeEnd tokens, t.kind ≠ .invalid := by decide
  refine ⟨tokens, rfl, hvalid, ((ofTokens_accepts_grammar tokens).1 hvalid _ _).2 ⟨rfl, rfl, ?_⟩⟩
  have hvalue : Grammar.Value value .int8 "-7" :=
    .mk _ .int8 _ _ rfl (.enclosed _ _ _ rfl rfl rfl)
  refine ⟨[.valued .push .int8 "-7", .simple .exit], ?_, by decide +kernel⟩
  exact .mk [newline] _ _ (by decide) (.line _ _ [newline, newline] _ _
    (.valued _ .push value .int8 "-7" rfl rfl hvalue) (by decide) (by decide)
    (.last _ _ (.simple _ .exit rfl rfl)))

end Program

end NumStack
