import NumStack.Proofs.Breaks
import NumStack.Proofs.LineIndependence
import NumStack.Proofs.Policy
import NumStack.Proofs.SessionLines

/-!
# Terminator lines

A session is read up to the first line whose first semicolon is followed by another. The scanner
finds the end of the input at the same line, unless an unexpected character in front of the two
semicolons takes the rest of the line with it: such a line ends the session and yet does not end the
input. On all other lines the two agree.
-/

namespace NumStack

namespace Token

/-! ## Legible text -/

/-- A text is legible if it holds no unexpected character. -/
def Legible (cs : List Char) : Prop := (lexed false cs .start).2 = []

instance (cs : List Char) : Decidable (Legible cs) :=
  inferInstanceAs (Decidable (_ = _))

/-- Whether a text is legible does not depend on where it stands. -/
theorem legible_iff (cs : List Char) (pos : Position) :
    Legible cs ↔ (lexed false cs pos).2 = [] := by
  obtain ⟨-, hfaults⟩ := lexed_forall₂ (R := fun _ _ => True) (T := fun _ _ => True)
    (F := fun _ _ => True) (fun _ _ _ _ => trivial) (fun _ _ _ _ _ => trivial)
    (fun _ _ _ _ => trivial) (fun _ _ _ => trivial) false cs .start pos trivial
  rw [Legible, ← List.length_eq_zero_iff, hfaults.length_eq, List.length_eq_zero_iff]

/-- Without semicolons, a session is scanned as a file is, and its terminator is missing. -/
theorem lexed_of_no_semicolon (cs : List Char) (pos : Position) (h : ';' ∉ cs) :
    lexed true cs pos = ((lexed false cs pos).1,
      (lexed false cs pos).2 ++ [.missingTerminator (pos.after cs).line]) := by
  fun_induction lexed true cs pos with
  | case1 cs pos here hnil =>
    have hblank : cs.takeWhile isBlank = cs :=
      List.takeWhile_eq_self_iff.2 (List.dropWhile_eq_nil_iff.1 hnil)
    rw [lexed_of_dropWhile_eq_nil false cs pos hnil]
    simp [here, hblank]
  | case2 cs pos here c tail hcons lexeme hend =>
    obtain ⟨-, -, htext⟩ | ⟨hkind, -⟩ | htoken := Lexeme.cut_cases true c tail
    · have hmem : ';' ∈ lexeme.text := htext ▸ List.mem_cons_self
      exact absurd (blanks_append_cut true cs c tail hcons ▸ by simp [lexeme, hmem]) h
    · rw [hkind] at hend
      cases hend
    · exact absurd hend (htoken.kind_ne .endOfInput rfl (by decide))
  | case3 cs pos here c tail hcons lexeme hend after ih =>
    have hsplit := blanks_append_cut true cs c tail hcons
    have hsame := Lexeme.cut_eq_of_kind_ne false c tail hend
    have hrest : ';' ∉ lexeme.rest := fun hmem => h (hsplit ▸ by simp [lexeme, hmem])
    have hafter : (here.after lexeme.text).after lexeme.rest = pos.after cs := by
      rw [← Position.after_append, ← Position.after_append, hsplit]
    have hfile := (lexed_of_dropWhile_eq_cons false cs pos c tail hcons).trans
      (if_neg (hsame ▸ hend))
    have hlater : after = _ := ih hrest
    rw [hfile, hsame, hlater, hafter]
    refine Prod.ext rfl ?_
    show (if lexeme.kind = .invalid then _ else _) = (if lexeme.kind = .invalid then _ else _) ++ _
    split <;> rfl

/-! ## The parts of a line -/

variable (interactive : Bool)

theorem lexed_terminator (rest : List Char) (pos : Position) :
    lexed true (';' :: ';' :: rest) pos = ([⟨.endOfInput, ";;", pos⟩], []) :=
  (lexed_of_dropWhile_eq_cons true _ pos ';' (';' :: rest) rfl).trans (if_pos rfl)

theorem lexed_newline (rest : List Char) (pos : Position) :
    lexed interactive ('\n' :: rest) pos =
      (⟨.newline, "\n", pos⟩ :: (lexed interactive rest (pos.next '\n')).1,
        (lexed interactive rest (pos.next '\n')).2) :=
  lexed_of_cut interactive '\n' [] rest .newline pos rfl rfl (by decide) (by decide) (by decide)

/-- What takes the rest of its line does so whatever follows the line. -/
theorem toLineEnd_append (kind : TokenKind) (line rest : List Char) (hline : '\n' ∉ line)
    (hrest : ∀ c ∈ rest.head?, c = '\n') :
    Lexeme.toLineEnd kind (line ++ rest) = ⟨kind, line, rest⟩ := by
  obtain ⟨htake, hdrop⟩ := run_append_stop (· != '\n') line rest
    (fun c hc => bne_iff_ne.2 fun heq => hline (heq ▸ hc)) (fun c hc => by simp [hrest c hc])
  rw [Lexeme.toLineEnd, Lexeme.run, htake, hdrop]

/-- A comment is skipped. -/
theorem lexed_comment (body rest : List Char) (pos : Position) (hbody : '\n' ∉ body)
    (hopen : body.head? ≠ some ';') (hrest : ∀ c ∈ rest.head?, c = '\n') :
    lexed interactive (';' :: body ++ rest) pos =
      lexed interactive rest (pos.after (';' :: body)) := by
  have hhead : (body ++ rest).head? ≠ some ';' := by
    cases body with
    | cons c body => exact hopen
    | nil => exact fun h => absurd (hrest ';' h) (by decide)
  have hcut : Lexeme.cut interactive ';' (body ++ rest) = ⟨.comment, ';' :: body, rest⟩ := by
    rw [Lexeme.cut, if_pos rfl,
      if_neg fun h => hhead (of_decide_eq_true (Bool.and_eq_true_iff.1 h).2), ← List.cons_append,
      toLineEnd_append .comment _ rest (by simp [hbody]) hrest]
  rw [List.cons_append, lexed_of_dropWhile_eq_cons interactive _ pos ';' (body ++ rest) rfl, hcut]
  rfl

/-- **Legible text is scanned on its own**, in front of a break. -/
theorem lexed_append_of_legible (cs rest : List Char) (pos : Position) (hcs : Legible cs)
    (hsemicolon : ';' ∉ cs) (hrest : ∀ c ∈ rest.head?, isBreak c = true) :
    lexed interactive (cs ++ rest) pos =
      ((lexed false cs pos).1.dropLast ++ (lexed interactive rest (pos.after cs)).1,
        (lexed interactive rest (pos.after cs)).2) := by
  have hfaults : (lexed true cs pos).2 = [.missingTerminator (pos.after cs).line] := by
    rw [lexed_of_no_semicolon cs pos hsemicolon, (legible_iff cs pos).1 hcs, List.nil_append]
  have hnone : ∀ front back, cs = front ++ ';' :: back → '\n' ∈ back := by
    rintro front back rfl
    exact absurd (List.mem_append_right front List.mem_cons_self) hsemicolon
  obtain ⟨tokens, -, hlexed⟩ := exists_lexed_append_of_break cs pos _ hfaults hnone
  -- alone, the text is followed by the end of the file
  have halone := hlexed false [] (by simp)
  rw [List.append_nil, lexed_of_dropWhile_eq_nil false [] _ rfl] at halone
  rw [halone, List.dropLast_concat, hlexed interactive rest hrest]

/-- **An unexpected character** takes the rest of its line with it, in front of a break and behind
it. -/
theorem lexed_append_of_invalid (cs back rest : List Char) (pos : Position) (c : Char)
    (tail : List Char) (hcons : cs.dropWhile isBlank = c :: tail)
    (hinvalid : (Lexeme.cut false c tail).kind = .invalid) (hnewline : '\n' ∉ cs)
    (hback : '\n' ∉ back) (hbreak : ∀ d ∈ (back ++ rest).head?, isBreak d = true)
    (hrest : ∀ d ∈ rest.head?, d = '\n') :
    lexed interactive (cs ++ (back ++ rest)) pos =
      (⟨.invalid, String.ofList (c :: (tail ++ back)), pos.after (cs.takeWhile isBlank)⟩ ::
          (lexed interactive rest (pos.after (cs ++ back))).1,
        .unexpectedCharacter (pos.after (cs.takeWhile isBlank)) c ::
          (lexed interactive rest (pos.after (cs ++ back))).2) := by
  have hmem : ∀ d ∈ c :: tail, d ∈ cs := by
    intro d hd
    rw [← hcons] at hd
    exact (List.dropWhile_suffix isBlank).subset hd
  have hline : '\n' ∉ c :: (tail ++ back) := by
    rw [← List.cons_append, List.mem_append, not_or]
    exact ⟨fun h => hnewline (hmem _ h), hback⟩
  obtain ⟨htake, hdrop⟩ := run_append_of_mem isBlank c (isBlank_of_dropWhile cs c tail hcons) cs
    back (hmem c List.mem_cons_self)
  rw [hcons, List.cons_append] at hdrop
  have hafter : (pos.after (cs.takeWhile isBlank)).after (c :: (tail ++ back)) =
      pos.after (cs ++ back) := by
    rw [← Position.after_append, ← hdrop, ← htake, List.takeWhile_append_dropWhile]
  have hcut : Lexeme.cut interactive c (tail ++ back ++ rest) =
      ⟨.invalid, c :: (tail ++ back), [] ++ rest⟩ := by
    rw [List.append_assoc, Lexeme.cut_append_of_invalid interactive c tail _ hbreak hinvalid,
      ← List.append_assoc, List.cons_append]
    exact toLineEnd_append .invalid _ rest hline hrest
  rw [← List.append_assoc, lexed_append_of_cut interactive (cs ++ back) rest pos c _ hdrop
    ⟨.invalid, c :: (tail ++ back), []⟩ hcut TokenKind.noConfusion, htake, ← hafter]
  rfl

/-- **Text that is not legible** spoils the rest of its line: all of it, whatever it is, gives one
fault. -/
theorem exists_lexed_of_not_legible (cs : List Char) (pos : Position)
    (hcs : (lexed false cs pos).2 ≠ []) (hnewline : '\n' ∉ cs) (hsemicolon : ';' ∉ cs)
    (back : List Char) (hback : '\n' ∉ back) (hbreak : ∀ c ∈ back.head?, isBreak c = true) :
    ∃ tokens p c, ∀ interactive rest, (∀ c ∈ rest.head?, c = '\n') →
      lexed interactive (cs ++ (back ++ rest)) pos =
        (tokens ++ (lexed interactive rest (pos.after (cs ++ back))).1,
          .unexpectedCharacter p c :: (lexed interactive rest (pos.after (cs ++ back))).2) := by
  have hmore : ∀ rest : List Char, (∀ c ∈ rest.head?, c = '\n') →
      ∀ c ∈ (back ++ rest).head?, isBreak c = true := by
    intro rest hrest
    cases back with
    | cons d back => exact hbreak
    | nil => exact fun c hc => hrest c hc ▸ rfl
  fun_induction lexed false cs pos with
  | case1 cs pos here hnil => exact absurd rfl hcs
  | case2 cs pos here c tail hcons lexeme hend => exact absurd rfl hcs
  | case3 cs pos here c tail hcons lexeme hend after ih =>
    have hsplit := blanks_append_cut false cs c tail hcons
    by_cases hinvalid : lexeme.kind = .invalid
    · refine ⟨[⟨.invalid, String.ofList (c :: (tail ++ back)), here⟩], here, c, ?_⟩
      intro interactive rest hrest
      exact lexed_append_of_invalid interactive cs back rest pos c tail hcons hinvalid hnewline
        hback (hmore rest hrest) hrest
    · -- any other lexeme ends before the break, and the fault is behind it
      have hc : c ≠ ';' := by
        rintro rfl
        have hmem : ';' ∈ cs.dropWhile isBlank := hcons ▸ List.mem_cons_self
        exact hsemicolon ((List.dropWhile_suffix isBlank).subset hmem)
      have hcomment : lexeme.kind ≠ .comment :=
        fun hkind => hc (Lexeme.eq_semicolon_of_comment false c tail hkind)
      have hsub : ∀ d ∈ lexeme.rest, d ∈ cs := by
        intro d hd
        rw [← hsplit]
        exact List.mem_append_right _ (List.mem_append_right _ hd)
      rw [if_neg hinvalid] at hcs
      obtain ⟨tokens, p, d, hlexed⟩ := ih hcs (fun h => hnewline (hsub _ h))
        (fun h => hsemicolon (hsub _ h))
      have hafter : (here.after lexeme.text).after (lexeme.rest ++ back) =
          pos.after (cs ++ back) := by
        rw [← Position.after_append, ← Position.after_append, ← List.append_assoc,
          ← List.append_assoc, List.append_assoc (cs.takeWhile isBlank), hsplit]
      rw [hafter] at hlexed
      refine ⟨⟨lexeme.kind, String.ofList lexeme.text, here⟩ :: tokens, p, d, ?_⟩
      intro interactive rest hrest
      have hcut : Lexeme.cut interactive c (tail ++ (back ++ rest)) =
          ⟨lexeme.kind, lexeme.text, lexeme.rest ++ (back ++ rest)⟩ := by
        rw [Lexeme.cut_eq_of_ne interactive false c _ hc,
          Lexeme.cut_append_of_break false c tail _ (hmore rest hrest) hcomment hinvalid]
      rw [lexed_append_of_cut interactive cs _ pos c tail hcons lexeme hcut hend]
      simp only [if_neg hinvalid, if_neg hcomment]
      rw [hlexed interactive rest hrest]
      rfl

/-! ## One line -/

/-- A terminator line with a legible opening ends the input. -/
theorem lexed_terminator_line (line rest : List Char) (pos : Position)
    (hends : Session.endsInput line = true) (hlegible : Legible (Session.opening line)) :
    lexed true (line ++ rest) pos =
      ((lexed false (Session.opening line) pos).1.dropLast ++
        [⟨.endOfInput, ";;", pos.after (Session.opening line)⟩], []) := by
  obtain ⟨-, back, hline⟩ | ⟨hnone, -⟩ := Session.opening_cases line
  · have hbreak : ∀ c ∈ (';' :: ';' :: (back ++ rest)).head?, isBreak c = true := by
      intro c hc
      cases hc
      rfl
    conv_lhs => rw [hline, List.append_assoc]
    rw [List.cons_append, List.cons_append, lexed_append_of_legible true _ _ pos hlegible
      (Session.semicolon_not_mem_opening line) hbreak, lexed_terminator]
  · rw [hends] at hnone
    cases hnone

/-- **Any other line** is left for the next one. If its opening is legible, it gives the tokens of
its opening, and otherwise unexpected characters. -/
theorem exists_lexed_line (line : List Char) (pos : Position) (hline : '\n' ∉ line)
    (hopen : Session.endsInput line = true → ¬ Legible (Session.opening line)) :
    ∃ tokens faults, (∀ fault ∈ faults, ∃ p c, fault = .unexpectedCharacter p c) ∧
      (faults = [] ↔ Legible (Session.opening line)) ∧
      (Legible (Session.opening line) →
        tokens = (lexed false (Session.opening line) pos).1.dropLast) ∧
      ∀ rest, (∀ c ∈ rest.head?, c = '\n') →
        lexed true (line ++ rest) pos = (tokens ++ (lexed true rest (pos.after line)).1,
          faults ++ (lexed true rest (pos.after line)).2) := by
  have hsemicolon := Session.semicolon_not_mem_opening line
  by_cases hlegible : Legible (Session.opening line)
  · refine ⟨_, [], List.forall_mem_nil _, iff_of_true rfl hlegible, fun _ => rfl, ?_⟩
    intro rest hrest
    obtain ⟨hends, -⟩ | ⟨-, heq | ⟨back, heq, hback⟩⟩ := Session.opening_cases line
    · exact absurd hlegible (hopen hends)
    · have hlexed := lexed_append_of_legible true _ rest pos hlegible hsemicolon
        fun c hc => hrest c hc ▸ rfl
      rwa [← heq] at hlexed ⊢
    · -- a comment follows the opening
      have hbreak : ∀ c ∈ (';' :: back ++ rest).head?, isBreak c = true := by
        intro c hc
        cases hc
        rfl
      have hbody : '\n' ∉ back := by
        intro hmem
        rw [heq] at hline
        exact hline (List.mem_append_right _ (List.mem_cons_of_mem _ hmem))
      conv_lhs => rw [heq, List.append_assoc]
      rw [lexed_append_of_legible true _ _ pos hlegible hsemicolon hbreak,
        lexed_comment true back rest _ hbody hback hrest, ← Position.after_append, ← heq]
      rfl
  · have hsplit : Session.opening line ++ line.dropWhile (· != ';') = line :=
      List.takeWhile_append_dropWhile
    have hbreak : ∀ c ∈ (line.dropWhile (· != ';')).head?, isBreak c = true := by
      intro c hc
      have hhead := List.head?_dropWhile_not (· != ';') line
      rw [Option.mem_def.1 hc] at hhead
      obtain rfl : c = ';' := by simpa using hhead
      rfl
    obtain ⟨tokens, p, c, hlexed⟩ := exists_lexed_of_not_legible (Session.opening line) pos
      (fun h => hlegible ((legible_iff _ pos).2 h)) (Session.newline_not_mem_opening line hline)
      hsemicolon (line.dropWhile (· != ';'))
      (fun hmem => hline ((List.dropWhile_suffix _).subset hmem)) hbreak
    refine ⟨tokens, [.unexpectedCharacter p c], ?_, iff_of_false (List.cons_ne_nil _ _) hlegible,
      fun h => absurd h hlegible, ?_⟩
    · intro fault hmem
      exact ⟨p, c, List.mem_singleton.1 hmem⟩
    · intro rest hrest
      have hrest' := hlexed true rest hrest
      rwa [← List.append_assoc, hsplit] at hrest'

/-! ## All lines -/

/-- What is wrong with the first line of a text and with the lines behind it, where the first line
does not end the input. -/
theorem exists_faults_line (line : List Char) (pos : Position) (hline : '\n' ∉ line)
    (hopen : Session.endsInput line = true → ¬ Legible (Session.opening line)) :
    ∃ faults, (∀ fault ∈ faults, ∃ p c, fault = .unexpectedCharacter p c) ∧
      (faults = [] ↔ Legible (Session.opening line)) ∧
      (lexed true line pos).2 = faults ++ [.missingTerminator (pos.after line).line] ∧
      ∀ rest, (lexed true (line ++ '\n' :: rest) pos).2 =
        faults ++ (lexed true rest ((pos.after line).next '\n')).2 := by
  obtain ⟨tokens, faults, hcharacters, hfaults, -, hlexed⟩ := exists_lexed_line line pos hline hopen
  refine ⟨faults, hcharacters, hfaults, ?_, ?_⟩
  · have hlast := hlexed [] (by simp)
    rw [List.append_nil, lexed_of_dropWhile_eq_nil true [] _ rfl] at hlast
    rw [hlast]
    rfl
  · intro rest
    have hrest : ∀ c ∈ ('\n' :: rest).head?, c = '\n' := by
      intro c hc
      cases hc
      rfl
    rw [hlexed ('\n' :: rest) hrest, lexed_newline]

/-- **The terminator is missing** exactly if no terminator line has a legible opening. -/
theorem missingTerminator_mem_lexed (cs : List Char) (pos : Position) :
    (∃ n, .missingTerminator n ∈ (lexed true cs pos).2) ↔
      ∀ line ∈ cs.splitOn '\n', Session.endsInput line = true →
        ¬ Legible (Session.opening line) := by
  induction cs using lines_induction generalizing pos with
  | last line hline =>
    rw [List.splitOn_eq_singleton hline, List.forall_mem_singleton]
    by_cases hopen : Session.endsInput line = true → ¬ Legible (Session.opening line)
    · obtain ⟨faults, -, -, hlast, -⟩ := exists_faults_line line pos hline hopen
      rw [hlast]
      exact iff_of_true ⟨_, List.mem_append_right _ List.mem_cons_self⟩ hopen
    · obtain ⟨hends, hlegible⟩ := Classical.not_imp.1 hopen
      have hlexed := lexed_terminator_line line [] pos hends (not_not.1 hlegible)
      rw [List.append_nil] at hlexed
      rw [hlexed]
      exact iff_of_false (fun ⟨_, hmem⟩ => List.not_mem_nil hmem) hopen
  | more line rest hline ih =>
    rw [List.splitOn_append_cons_self_of_not_mem hline, List.forall_mem_cons]
    by_cases hopen : Session.endsInput line = true → ¬ Legible (Session.opening line)
    · obtain ⟨faults, hcharacters, -, -, hmore⟩ := exists_faults_line line pos hline hopen
      have hnone : ∀ n, .missingTerminator n ∉ faults := by
        intro n hmem
        obtain ⟨p, c, heq⟩ := hcharacters _ hmem
        cases heq
      rw [hmore rest, and_iff_right hopen, ← ih ((pos.after line).next '\n')]
      simp only [List.mem_append, hnone, false_or]
    · obtain ⟨hends, hlegible⟩ := Classical.not_imp.1 hopen
      rw [lexed_terminator_line line _ pos hends (not_not.1 hlegible)]
      exact iff_of_false (fun ⟨_, hmem⟩ => List.not_mem_nil hmem) fun h => hopen h.1

/-- Where the terminator is missing and no character is unexpected, all openings are legible. -/
theorem legible_of_missingTerminator (cs : List Char) (pos : Position)
    (hmissing : ∃ n, .missingTerminator n ∈ (lexed true cs pos).2)
    (hcharacters : ∀ p c, .unexpectedCharacter p c ∉ (lexed true cs pos).2) :
    ∀ line ∈ cs.splitOn '\n', Legible (Session.opening line) := by
  have hopen := (missingTerminator_mem_lexed cs pos).1 hmissing
  clear hmissing
  -- the faults of a line are faults of the text, so there are none
  have hnil : ∀ {faults all : List SourceFault},
      (∀ fault ∈ faults, ∃ p c, fault = .unexpectedCharacter p c) →
      (∀ p c, .unexpectedCharacter p c ∉ faults ++ all) → faults = [] := by
    intro faults all hfaults hnone
    apply List.eq_nil_iff_forall_not_mem.2
    intro fault hmem
    obtain ⟨p, c, rfl⟩ := hfaults fault hmem
    exact hnone p c (List.mem_append_left _ hmem)
  induction cs using lines_induction generalizing pos with
  | last line hline =>
    rw [List.splitOn_eq_singleton hline, List.forall_mem_singleton] at hopen ⊢
    obtain ⟨faults, hfaults, hlegible, hlast, -⟩ := exists_faults_line line pos hline hopen
    rw [hlast] at hcharacters
    exact hlegible.1 (hnil hfaults hcharacters)
  | more line rest hline ih =>
    rw [List.splitOn_append_cons_self_of_not_mem hline, List.forall_mem_cons] at hopen ⊢
    obtain ⟨faults, hfaults, hlegible, -, hmore⟩ := exists_faults_line line pos hline hopen.1
    rw [hmore] at hcharacters
    refine ⟨hlegible.1 (hnil hfaults hcharacters), ih ((pos.after line).next '\n') ?_ hopen.2⟩
    intro p c hmem
    exact hcharacters p c (List.mem_append_right _ hmem)

end Token

namespace Program

/-! ## The terminator in reports -/

/-- A collecting assembly reports the lexical faults that scanning meets. -/
theorem mem_reported_of_isLexical (interactive : Bool) (text : String) (fault : SourceFault)
    (h : fault.isLexical = true) :
    fault ∈ reported ⟨.collect, interactive⟩ text ↔
      fault ∈ (Token.lexed interactive text.toList .start).2 := by
  have hparse : fault ∉ parseFaults (tokensOf interactive text) := by
    intro hmem
    rw [not_isLexical_of_mem_parseFaults _ fault hmem] at h
    cases h
  rw [reported_eq_mergeSort, List.mem_mergeSort, allFaults, List.mem_append, or_iff_left hparse]

/-- **When the terminator is reported missing.** A collecting assembly of a session reports a
missing terminator exactly if no terminator line of the text has a legible opening. A terminator
line whose opening is not legible ends the session and not the input. So the reader and the scanner
agree on all texts without unexpected characters. -/
theorem missingTerminator_mem_reported (text : String) :
    ((∃ n, .missingTerminator n ∈ reported ⟨.collect, true⟩ text) ↔
      ∀ line ∈ text.toList.splitOn '\n', Session.endsInput line = true →
        ¬ Token.Legible (Session.opening line)) ∧
    ((∃ p c, .unexpectedCharacter p c ∈ reported ⟨.collect, true⟩ text) ∨
      ((∃ n, .missingTerminator n ∈ reported ⟨.collect, true⟩ text) ↔
        ∀ line ∈ text.toList.splitOn '\n', Session.endsInput line = false)) := by
  have hmissing : (∃ n, .missingTerminator n ∈ reported ⟨.collect, true⟩ text) ↔
      ∃ n, .missingTerminator n ∈ (Token.lexed true text.toList .start).2 :=
    exists_congr fun n => mem_reported_of_isLexical true text _ rfl
  have hterminator := hmissing.trans (Token.missingTerminator_mem_lexed text.toList .start)
  refine ⟨hterminator, or_iff_not_imp_left.2 ?_⟩
  intro hcharacters
  have hnone : ∀ p c, .unexpectedCharacter p c ∉ (Token.lexed true text.toList .start).2 := by
    intro p c hmem
    exact hcharacters ⟨p, c, (mem_reported_of_isLexical true text _ rfl).2 hmem⟩
  constructor
  · intro h line hline
    have hlegible := Token.legible_of_missingTerminator _ .start (hmissing.1 h) hnone line hline
    exact Bool.eq_false_iff.2 fun hends => hterminator.1 h line hline hends hlegible
  · intro h
    apply hterminator.2
    intro line hline hends
    rw [h line hline] at hends
    cases hends

/-- The reader ends this session at its second line, which is a terminator, and yet the terminator
is reported missing. -/
theorem missingTerminator_behind_unexpectedCharacter :
    Session.read? (Utf8.encode "exit\n@ ;;\npop\n".toList) =
        some ("exit\n@ ;;\n".toList, Utf8.encode "pop\n".toList) ∧
      (∃ line ∈ "exit\n@ ;;\n".toList.splitOn '\n', Session.endsInput line = true) ∧
      reported ⟨.collect, true⟩ "exit\n@ ;;\n" =
        [.unexpectedCharacter ⟨2, 1⟩ '@', .missingTerminator 3] := by
  have hstream : "exit\n@ ;;\npop\n".toList =
      "exit".toList ++ '\n' :: ("@ ;;".toList ++ '\n' :: "pop\n".toList) := rfl
  have hall : allFaults true "exit\n@ ;;\n" =
      [.unexpectedCharacter ⟨2, 1⟩ '@', .missingTerminator 3] := by decide +kernel
  refine ⟨?_, by decide +kernel, ?_⟩
  · rw [hstream, Session.read?_encode_line _ _ (by decide), if_neg (by decide),
      Session.read?_encode_line _ _ (by decide), if_pos (by decide)]
    rfl
  · rw [reported_eq_mergeSort, hall, List.mergeSort_of_pairwise (by decide)]

end Program

end NumStack
