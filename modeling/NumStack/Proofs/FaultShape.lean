import NumStack.Proofs.Breaks
import NumStack.Proofs.FaultPlaces
import NumStack.Proofs.Policy

/-!
# The shape of a fault list

A collecting assembly lists what its two stages have found, by line. Each line has at most one
unexpected character, which takes the rest of the line with it, and at most one fault of the parser,
which then stands in front of that character. At most one terminator is missing, and at most one
`exit`, which is reported last. All this is told by the order of the tokens.
-/

namespace NumStack

namespace SourceFault

/-! ## Sorts of faults -/

/-- Whether the fault is a character that starts no token. -/
def isCharacter : SourceFault → Bool
  | unexpectedCharacter _ _ => true
  | _ => false

/-- Whether the fault is found in reading a line. -/
def isOfLine : SourceFault → Bool
  | unknownInstruction _ _ | expectedKind _ _ | expectedNumber _ _ | unexpectedToken _ _ _
  | invalidOperand _ _ => true
  | _ => false

/-- Whether the fault is a missing terminator. -/
def isTerminator : SourceFault → Bool
  | missingTerminator _ => true
  | _ => false

/-- The lexical faults are unexpected characters and missing terminators. -/
theorem isLexical_eq (f : SourceFault) : f.isLexical = (f.isCharacter || f.isTerminator) := by
  cases f <;> rfl

theorem not_isLexical_of_isOfLine (f : SourceFault) (h : f.isOfLine = true) :
    f.isLexical = false := by
  cases f <;> first | rfl | cases h

end SourceFault

/-! ## Tokens in order -/

namespace Lexeme

/-- A character that starts no token takes the rest of its line with it. -/
theorem cut_of_invalid (interactive : Bool) (c : Char) (cs : List Char)
    (h : (cut interactive c cs).kind = .invalid) :
    cut interactive c cs = toLineEnd .invalid (c :: cs) := by
  have hc : c ≠ ';' := by
    rintro rfl
    unfold cut at h
    rw [if_pos rfl] at h
    split at h <;> cases h
  have hfile : (cut false c cs).kind = .invalid := by
    obtain ⟨form, hcut, -⟩ := exists_form c hc (cs.head?.any Char.isDigit)
    rwa [hcut false cs rfl, ← hcut interactive cs rfl]
  have hcut := cut_append_of_invalid interactive c cs [] (by simp) hfile
  rwa [List.append_nil, List.append_nil] at hcut

end Lexeme

namespace Token

/-- How tokens follow one another. A line goes from left to right. Behind a newline is another line,
behind an invalid token nothing on its line, and behind an end marker nothing at all. -/
structure Precedes (t u : Token) : Prop where
  notEnd : t.isEnd = false
  line_le : t.position.line ≤ u.position.line
  column_lt : t.position.line = u.position.line → t.position.column < u.position.column
  newline : t.isNewline = true → t.position.line < u.position.line
  invalid : t.kind = .invalid → u.inLine = true → t.position.line < u.position.line

/-- At the end of a line there are no more tokens on that line. -/
theorem line_lt_of_mem_lexed (interactive : Bool) (cs : List Char) (pos : Position)
    (h : ∀ c ∈ cs.head?, c = '\n') :
    ∀ t ∈ (lexed interactive cs pos).1, t.inLine = true → pos.line < t.position.line := by
  cases cs with
  | nil =>
    rw [lexed_of_dropWhile_eq_nil _ _ _ rfl]
    intro t ht hin
    rw [List.mem_singleton.1 ht] at hin
    cases hin
  | cons c cs =>
    obtain rfl := h c rfl
    have hlexed := lexed_of_cut interactive '\n' [] cs .newline pos isBlank_newline rfl (by decide)
      (by decide) (by decide)
    rw [show '\n' :: cs = ['\n'] ++ cs from rfl, hlexed]
    refine List.forall_mem_cons.2 ⟨by rintro ⟨⟩, fun t ht _ => ?_⟩
    obtain ⟨⟨passed, hpassed⟩, -⟩ := exists_cut_of_mem_lexed interactive cs _ t ht
    rw [hpassed, ← Position.after_append]
    exact pos.line_lt_after _ (by simp)

/-- A lexeme precedes what stands behind it. -/
theorem precedes_of_after (l : Lexeme) (hl : l.IsToken) (hne : l.text ≠ []) (here : Position)
    (u : Token) (passed : List Char) (hu : u.position = here.after (l.text ++ passed))
    (hinvalid : l.kind = .invalid → u.inLine = true → here.line < u.position.line) :
    Precedes ⟨l.kind, String.ofList l.text, here⟩ u where
  notEnd := hl.isEnd_eq _ _
  line_le := by
    rw [hu, Position.line_after]
    exact Nat.le_add_right _ _
  column_lt := by
    intro hsame
    have hnone : '\n' ∉ l.text ++ passed := by
      intro hmem
      have hlt := here.line_lt_after _ hmem
      rw [← hu] at hlt
      exact absurd hsame (Nat.ne_of_lt hlt)
    have hlength := List.length_pos_iff.2 hne
    rw [hu, Position.after_of_newline_not_mem _ _ hnone, List.length_append]
    exact Nat.lt_add_of_pos_right (Nat.add_pos_left hlength _)
  newline := by
    intro hnewline
    obtain ⟨-, htext⟩ | ⟨honLine, -⟩ := hl
    · rw [hu]
      exact here.line_lt_after _ (by simp [htext])
    · rw [show l.kind = .newline from of_decide_eq_true hnewline] at honLine
      cases honLine
  invalid := hinvalid

/-- **Tokens are cut off in order.** -/
theorem lexed_precedes (interactive : Bool) (cs : List Char) (pos : Position) :
    (lexed interactive cs pos).1.Pairwise Precedes := by
  fun_induction lexed interactive cs pos with
  | case1 cs pos here hnil => exact List.pairwise_singleton _ _
  | case2 cs pos here c tail hcons lexeme hend => exact List.pairwise_singleton _ _
  | case3 cs pos here c tail hcons lexeme hend after ih =>
    dsimp only
    split
    · exact ih
    rename_i hcomment
    have htoken : lexeme.IsToken := by
      obtain ⟨hkind, -⟩ | ⟨hkind, -⟩ | htoken := Lexeme.cut_cases interactive c tail
      · exact absurd hkind hend
      · exact absurd hkind hcomment
      · exact htoken
    refine List.pairwise_cons.2 ⟨fun u hu => ?_, ih⟩
    obtain ⟨⟨passed, hpassed⟩, -⟩ := exists_cut_of_mem_lexed interactive _ _ u hu
    rw [← Position.after_append] at hpassed
    refine precedes_of_after lexeme htoken (Lexeme.cut_text_ne_nil interactive c tail) here u passed
      hpassed fun hinvalid hin => ?_
    have hstop : ∀ d ∈ lexeme.rest.head?, d = '\n' := by
      rw [show lexeme = _ from Lexeme.cut_of_invalid interactive c tail hinvalid]
      exact Lexeme.toLineEnd_rest .invalid (c :: tail)
    have hbelow := line_lt_of_mem_lexed interactive lexeme.rest _ hstop u hu hin
    rw [Position.line_after here] at hbelow
    omega

/-- Of two lexical faults of a text the first is no missing terminator, and they are not unexpected
characters of one line. -/
theorem lexed_faults_pairwise (interactive : Bool) (cs : List Char) (pos : Position) :
    (lexed interactive cs pos).2.Pairwise fun f g => f.isTerminator = false ∧
      (f.isCharacter = true → g.isCharacter = true → f.line? ≠ g.line?) := by
  rw [lexed_faults, List.pairwise_filterMap]
  refine (lexed_precedes interactive cs pos).imp ?_
  intro t u htu f hf g hg
  obtain ⟨hinvalid, c, -, rfl⟩ | ⟨hend, -⟩ := lexicalFault?_eq_some hf
  · refine ⟨rfl, fun _ hcharacter => ?_⟩
    obtain ⟨hinvalid', d, -, rfl⟩ | ⟨-, -, rfl⟩ := lexicalFault?_eq_some hg
    · have hlt := htu.invalid hinvalid (u.inLine_of_kind _ hinvalid' rfl)
      intro hsame
      exact absurd (Option.some.inj hsame) (Nat.ne_of_lt hlt)
    · cases hcharacter
  · have hno := htu.notEnd
    simp [isEnd, hend] at hno

theorem HasFault.position?_eq {t : Token} {fault : SourceFault} (h : t.HasFault fault) :
    fault.position? = some t.position := by
  cases h <;> rfl

theorem HasFault.isOfLine {t : Token} {fault : SourceFault} (h : t.HasFault fault) :
    fault.isOfLine = true := by
  cases h <;> rfl

end Token

/-! ## Refused lines in order -/

namespace Grammar

/-- An instruction is made up of valid tokens. -/
theorem Instruction.valid {ts : List Token} {s : Statement} (h : Instruction ts s) :
    ∀ u ∈ ts, u.kind ≠ .invalid := by
  cases h with
  | simple t o ht ho => simp [ht]
  | valued t o ts kind literal ht ho hvalue =>
    cases hvalue with
    | mk k kind ts n hk harg =>
      cases harg with
      | bare n hn => simp [ht, hk, n.kind_ne_invalid_of_isNumber hn]
      | enclosed l n r hl hn hr => simp [ht, hk, hl, n.kind_ne_invalid_of_isNumber hn, hr]

theorem Opening.valid {opened : List Token} (h : Opening opened) :
    ∀ u ∈ opened, u.kind ≠ .invalid := by
  cases h with
  | bare => simp
  | paren l hl => simp [hl]

/-- What is taken of a refused line are valid tokens. -/
theorem Refusal.valid {front : List Token} {t : Token} {fault : SourceFault}
    (h : Refusal front t fault) : ∀ u ∈ front, u.kind ≠ .invalid := by
  cases h with
  | unknown t ht => simp
  | instruction t ht => simp
  | kind i t o hi ht => simp [hi]
  | number i k t o kind opened hi hk hopened ht => simpa [hi, hk] using hopened.valid
  | close i k l n t o kind hi hk hl hn ht =>
    simp [hi, hk, hl, n.kind_ne_invalid_of_isNumber hn]
  | literal i k n o kind opened cause hi hk hopened hn h => simpa [hi, hk] using hopened.valid
  | rest ts s t hts ht => exact hts.valid

end Grammar

namespace Program

variable {tokens : List Token} {fault : SourceFault}

/-- Tokens of whole lines are above those behind. -/
theorem line_lt_of_wholeLines {above rest : List Token}
    (hordered : (above ++ rest).Pairwise Token.Precedes)
    (habove : ∀ u ∈ above.getLast?, u.isNewline = true) :
    ∀ w ∈ above, ∀ t ∈ rest, w.position.line < t.position.line := by
  intro w hw t ht
  obtain ⟨hlines, -, hcross⟩ := List.pairwise_append.1 hordered
  obtain rfl | ⟨lead, last, rfl⟩ := List.eq_nil_or_concat' above
  · cases hw
  -- the last newline lies between the two
  have hlast : last.position.line < t.position.line :=
    (hcross last (by simp) t ht).newline (habove last (by simp))
  rcases List.mem_append.1 hw with hw | hw
  · have hle := ((List.pairwise_append.1 hlines).2.2 w hw last (by simp)).line_le
    omega
  · rwa [List.mem_singleton.1 hw]

/-- A line behind one that ends here is refused further down. -/
theorem RefusesLine.exists_line_lt (h : RefusesLine tokens fault)
    (hordered : tokens.Pairwise Token.Precedes) (hhead : ∀ u ∈ tokens.head?, u.inLine = false) :
    ∃ w rest, tokens = w :: rest ∧ ∀ n, fault.line? = some n → w.position.line < n := by
  obtain ⟨above, front, t, below, rfl, habove, ⟨u, hu, hin⟩, -, hrefusal⟩ := h
  have hlt := line_lt_of_wholeLines hordered habove
  cases above with
  | nil =>
    rw [hhead u hu] at hin
    cases hin
  | cons w above =>
    refine ⟨w, _, rfl, fun n hn => ?_⟩
    rw [hrefusal.hasFault.line?_eq] at hn
    cases hn
    exact hlt w List.mem_cons_self t (by simp)

/-- **A refused line and an invalid token.** If they are on one line, the line is refused in front
of the token. -/
theorem RefusesLine.column_lt (h : RefusesLine tokens fault)
    (hordered : tokens.Pairwise Token.Precedes) (x : Token) (hx : x ∈ tokens)
    (hinvalid : x.kind = .invalid) (q : Position) (hq : fault.position? = some q)
    (hline : q.line = x.position.line) : q.column < x.position.column := by
  obtain ⟨above, front, t, below, rfl, habove, -, hvalid, hrefusal⟩ := h
  rw [hrefusal.hasFault.position?_eq] at hq
  cases hq
  rcases List.mem_append.1 hx with hx | hx
  · have hlt := line_lt_of_wholeLines hordered habove x hx t (by simp)
    omega
  rcases List.mem_append.1 hx with hx | hx
  · exact absurd hinvalid (hrefusal.valid x hx)
  rcases List.mem_cons.1 hx with rfl | hx
  · exact absurd hinvalid hvalid
  · have hbehind := (List.pairwise_append.1 (List.pairwise_append.1 hordered).2.1).2.1
    exact ((List.pairwise_cons.1 hbehind).1 x hx).column_lt hline

/-- A line is refused no further down than where it ends. -/
theorem line_le_of_read (tokens : List Token) (hordered : tokens.Pairwise Token.Precedes)
    (w : Token) (rest : List Token) (hrest : tokens.dropWhile Token.inLine = w :: rest)
    (hread : (Line.first tokens).read = .error (.fault fault)) :
    ∀ n, fault.line? = some n → n ≤ w.position.line := by
  obtain ⟨u, hu, -, hfault⟩ := Line.read_failsWith _ (Line.first_stop_inLine _) _ hread
  intro n hn
  rw [hfault.line?_eq] at hn
  cases hn
  rw [← List.takeWhile_append_dropWhile (p := Token.inLine) (l := tokens), hrest] at hordered
  rcases hu with hu | rfl
  · exact ((List.pairwise_append.1 hordered).2.2 u hu w (by simp)).line_le
  · rw [Line.first, hrest]
    rfl

/-- **One fault a line.** The faults of lines are on increasing lines. -/
theorem linesRead_lines_lt (tokens : List Token) (h : Token.Stopped tokens)
    (hordered : tokens.Pairwise Token.Precedes) :
    (linesRead tokens).2.Pairwise fun f g =>
      ∀ m n, f.line? = some m → g.line? = some n → m < n := by
  fun_induction linesRead tokens with
  | case1 tokens hnil => exact .nil
  | case2 tokens t tail hcons hend => exact .nil
  | case3 tokens t tail hcons hend after i hread ih =>
    have hrest := Token.rest_suffix hcons
    exact ih (h.of_suffix hrest) (hordered.sublist hrest.sublist)
  | case4 tokens t tail hcons hend after hread ih =>
    have hrest := Token.rest_suffix hcons
    exact ih (h.of_suffix hrest) (hordered.sublist hrest.sublist)
  | case5 tokens t tail hcons hend after fault hread ih =>
    have hrest := Token.rest_suffix hcons
    have hstopped := h.of_suffix hrest
    have hordered' := hordered.sublist hrest.sublist
    refine List.pairwise_cons.2 ⟨fun g hg m n hm hn => ?_, ih hstopped hordered'⟩
    -- the token that ends the first line lies between the two faults
    obtain ⟨w, rest, hw, hlt⟩ := (refusesLine_of_mem_linesRead _ hstopped g hg).exists_line_lt
      hordered' (inLine_of_head_dropWhile tail)
    have hin : t.inLine = true := by
      simp [Token.inLine, hend, isNewline_of_dropWhile_eq_cons tokens t tail hcons]
    have hdrop : (t :: tail).dropWhile Token.inLine = w :: rest := by
      rw [List.dropWhile_cons_of_pos hin, hw]
    have hline : t :: tail <:+ tokens := hcons ▸ List.dropWhile_suffix Token.isNewline
    have hle := line_le_of_read _ (hordered.sublist hline.sublist) w rest hdrop hread m hm
    exact Nat.lt_of_le_of_lt hle (hlt n hn)

end Program

/-! ## The list of a collecting assembly -/

/-- At most one element has a property that no two of the elements have. -/
theorem countP_le_one {α : Type} (p : α → Bool) (l : List α)
    (h : l.Pairwise fun a b => p a = true → p b = false) : l.countP p ≤ 1 := by
  induction l with
  | nil => simp
  | cons a l ih =>
    obtain ⟨hfirst, hrest⟩ := List.pairwise_cons.1 h
    cases ha : p a with
    | false => simpa [ha] using ih hrest
    | true =>
      have hzero : l.countP p = 0 := by
        rw [List.countP_eq_zero]
        intro b hb
        simp [hfirst b hb ha]
      simp [ha, hzero]

/-- At most one fault of a sort is on a line if no two faults of the sort are on one line. -/
theorem countP_line_le_one (sort : SourceFault → Bool) (faults : List SourceFault)
    (h : faults.Pairwise fun f g => sort f = true → sort g = true → f.line? ≠ g.line?) (n : Nat) :
    faults.countP (fun f => sort f && f.line? == some n) ≤ 1 := by
  apply countP_le_one
  refine h.imp ?_
  intro f g hfg hf
  rw [Bool.and_eq_true, beq_iff_eq] at hf
  rw [Bool.and_eq_false_iff, beq_eq_false_iff_ne]
  cases hg : sort g with
  | false => exact .inl rfl
  | true => exact .inr fun hline => hfg hf.1 hg (hf.2.trans hline.symm)

namespace SourceFault

/-- Two faults that do not repeat one another: on one line neither two unexpected characters nor two
faults of the parser, and not two missing terminators or two missing `exit`s. -/
structure Apart (f g : SourceFault) : Prop where
  character : f.isCharacter = true → g.isCharacter = true → f.line? ≠ g.line?
  ofLine : f.isOfLine = true → g.isOfLine = true → f.line? ≠ g.line?
  terminator : f.isTerminator = true → g.isTerminator = false
  exit : f = missingExit → g ≠ missingExit

/-- A lexical fault and one of the parser are apart. -/
theorem Apart.of_isLexical {f g : SourceFault} (hf : f.isLexical = true)
    (hg : g.isLexical = false) : Apart f g where
  character := by
    intro _ hcharacter
    rw [isLexical_eq, hcharacter] at hg
    cases hg
  ofLine := by
    intro hline
    rw [not_isLexical_of_isOfLine f hline] at hf
    cases hf
  terminator := by
    intro _
    rw [isLexical_eq, Bool.or_eq_false_iff] at hg
    exact hg.2
  exit := by
    rintro rfl
    cases hf

/-- A fault of a line is apart from what is not on its line. -/
theorem Apart.of_isOfLine {f g : SourceFault} (hf : f.isOfLine = true) (h : f.line? ≠ g.line?) :
    Apart f g where
  character := fun _ _ => h
  ofLine := fun _ _ => h
  terminator := by
    intro hterminator
    have hlexical := not_isLexical_of_isOfLine f hf
    rw [isLexical_eq, hterminator, Bool.or_true] at hlexical
    cases hlexical
  exit := by
    rintro rfl
    cases hf

/-- The shape of a list of collected faults. -/
structure Listed (faults : List SourceFault) : Prop where
  /-- Lines do not decrease, and what has no line stands behind what has one. -/
  sorted : faults.Pairwise fun f g => ∀ n, g.line? = some n → ∃ m, f.line? = some m ∧ m ≤ n
  /-- A line has at most one unexpected character. -/
  character : ∀ n, faults.countP (fun f => f.isCharacter && f.line? == some n) ≤ 1
  /-- A line has at most one fault of the parser. -/
  ofLine : ∀ n, faults.countP (fun f => f.isOfLine && f.line? == some n) ≤ 1
  /-- At most one terminator is missing. -/
  terminator : faults.countP isTerminator ≤ 1
  /-- At most one `exit` is missing, and that is said last. -/
  exit : faults.count missingExit ≤ 1 ∧
    (missingExit ∈ faults → faults.getLast? = some missingExit)
  /-- On the line of an unexpected character, a fault of the parser points in front of it, and not
  into the text that is skipped from there on. -/
  skipped : ∀ p c, unexpectedCharacter p c ∈ faults → ∀ f ∈ faults, f.isOfLine = true →
    ∀ q, f.position? = some q → q.line = p.line → q.column < p.column

end SourceFault

namespace Program

/-- The lexical faults of a text are apart. -/
theorem lexed_apart (interactive : Bool) (cs : List Char) :
    (Token.lexed interactive cs .start).2.Pairwise SourceFault.Apart := by
  refine (Token.lexed_faults_pairwise interactive cs .start).imp_of_mem ?_
  intro f g hf _ ⟨hterminator, hcharacter⟩
  have hlexical := Token.isLexical_of_mem_lexed interactive cs .start f hf
  refine ⟨hcharacter, ?_, ?_, ?_⟩
  · intro hline
    rw [SourceFault.not_isLexical_of_isOfLine f hline] at hlexical
    cases hlexical
  · intro h
    rw [h] at hterminator
    cases hterminator
  · rintro rfl
    cases hlexical

/-- The faults of the parser are apart. -/
theorem parseFaults_apart (tokens : List Token) (h : Token.Stopped tokens)
    (hordered : tokens.Pairwise Token.Precedes) :
    (parseFaults tokens).Pairwise SourceFault.Apart := by
  rw [parseFaults, List.pairwise_append]
  refine ⟨?_, ?_, ?_⟩
  · refine (linesRead_lines_lt tokens h hordered).imp_of_mem ?_
    intro f g hf _ hlt
    obtain ⟨t, -, hfault⟩ := exists_token_of_mem_linesRead tokens h f hf
    refine .of_isOfLine hfault.isOfLine fun hsame => ?_
    exact Nat.lt_irrefl _ (hlt _ _ hfault.line?_eq (hsame ▸ hfault.line?_eq))
  · split
    · exact .nil
    · exact List.pairwise_singleton _ _
  · intro f hf g hg
    obtain ⟨t, -, hfault⟩ := exists_token_of_mem_linesRead tokens h f hf
    split at hg
    · cases hg
    · rw [List.mem_singleton.1 hg]
      refine .of_isOfLine hfault.isOfLine ?_
      rw [hfault.line?_eq]
      exact Option.some_ne_none _

/-- **All faults met in a text are apart.** -/
theorem allFaults_apart (interactive : Bool) (text : String) :
    (allFaults interactive text).Pairwise SourceFault.Apart := by
  rw [allFaults, List.pairwise_append]
  refine ⟨lexed_apart interactive text.toList, ?_, ?_⟩
  · exact parseFaults_apart _ (Token.lexed_stopped interactive text.toList)
      (Token.lexed_precedes interactive text.toList .start)
  · intro f hf g hg
    exact .of_isLexical (Token.isLexical_of_mem_lexed _ _ _ f hf)
      (not_isLexical_of_mem_parseFaults _ g hg)

/-- A missing `exit` is met if the instructions read hold none. -/
theorem missingExit_mem_allFaults (interactive : Bool) (text : String) :
    .missingExit ∈ allFaults interactive text ↔
      .exit ∉ (linesRead (tokensOf interactive text)).1 := by
  have hlexical : .missingExit ∉ (Token.lexed interactive text.toList .start).2 := by
    intro hmem
    cases Token.isLexical_of_mem_lexed _ _ _ _ hmem
  have hlines : .missingExit ∉ (linesRead (tokensOf interactive text)).2 := by
    intro hmem
    obtain ⟨t, -, hfault⟩ :=
      exists_token_of_mem_linesRead _ (Token.lexed_stopped interactive text.toList) _ hmem
    cases hfault
  rw [allFaults, parseFaults, List.mem_append, List.mem_append, ← hasExit_iff]
  cases (linesRead (tokensOf interactive text)).1.hasExit <;> simp [hlexical, hlines]

/-- A fault of a line that is met in a text is why one of its lines is refused. -/
theorem refusesLine_of_mem_allFaults (interactive : Bool) (text : String) (f : SourceFault)
    (hf : f ∈ allFaults interactive text) (hline : f.isOfLine = true) :
    RefusesLine (tokensOf interactive text) f := by
  have hlexical := SourceFault.not_isLexical_of_isOfLine f hline
  rcases List.mem_append.1 hf with hmem | hmem
  · rw [Token.isLexical_of_mem_lexed _ _ _ f hmem] at hlexical
    cases hlexical
  rcases List.mem_append.1 hmem with hmem | hmem
  · exact refusesLine_of_mem_linesRead _ (Token.lexed_stopped interactive text.toList) f hmem
  · split at hmem
    · cases hmem
    · rw [List.mem_singleton.1 hmem] at hline
      cases hline

/-- A fault of a line points in front of an unexpected character on that line. -/
theorem column_lt_of_mem_allFaults (interactive : Bool) (text : String) (p : Position) (c : Char)
    (hcharacter : .unexpectedCharacter p c ∈ allFaults interactive text) (f : SourceFault)
    (hf : f ∈ allFaults interactive text) (hline : f.isOfLine = true) (q : Position)
    (hq : f.position? = some q) (hsame : q.line = p.line) : q.column < p.column := by
  -- the character starts an invalid token
  obtain ⟨x, hx, hinvalid, rfl⟩ : ∃ x ∈ tokensOf interactive text, x.kind = .invalid ∧
      p = x.position := by
    rcases List.mem_append.1 hcharacter with hmem | hmem
    · rw [Token.lexed_faults] at hmem
      obtain ⟨x, hx, hfault⟩ := List.mem_filterMap.1 hmem
      obtain ⟨hinvalid, d, -, hd⟩ | ⟨-, -, hend⟩ := Token.lexicalFault?_eq_some hfault
      · cases hd
        exact ⟨x, hx, hinvalid, rfl⟩
      · cases hend
    · cases not_isLexical_of_mem_parseFaults _ _ hmem
  have hrefused := refusesLine_of_mem_allFaults interactive text f hf hline
  exact hrefused.column_lt (Token.lexed_precedes interactive text.toList .start) x hx hinvalid q hq
    hsame

/-- Faults sorted by line: a fault with a line has only such faults in front, on lines up to it. -/
theorem exists_line_of_faultLe (f g : SourceFault) (h : faultLe f g = true) :
    ∀ n, g.line? = some n → ∃ m, f.line? = some m ∧ m ≤ n := by
  intro n hn
  unfold faultLe at h
  rw [hn] at h
  cases hf : f.line? with
  | none =>
    rw [hf] at h
    cases h
  | some m =>
    rw [hf] at h
    exact ⟨m, rfl, of_decide_eq_true h⟩

/-- In a sorted list a missing `exit` that is there once stands at the end. -/
theorem getLast?_of_missingExit_mem (faults : List SourceFault)
    (hsorted : faults.Pairwise fun f g => ∀ n, g.line? = some n → ∃ m, f.line? = some m ∧ m ≤ n)
    (hcount : faults.count .missingExit ≤ 1) (hmem : .missingExit ∈ faults) :
    faults.getLast? = some .missingExit := by
  obtain ⟨front, back, rfl⟩ := List.append_of_mem hmem
  have hback : back = [] := by
    rw [List.eq_nil_iff_forall_not_mem]
    intro g hg
    have hbehind := (List.pairwise_append.1 hsorted).2.1
    cases hline : g.line? with
    | some n =>
      obtain ⟨m, hm, -⟩ := (List.pairwise_cons.1 hbehind).1 g hg n hline
      cases hm
    | none =>
      -- only a missing `exit` has no line, and there is no second one
      have hexit : g = .missingExit := by
        cases g <;> first | rfl | cases hline
      have hpos := List.count_pos_iff.2 (hexit ▸ hg)
      rw [List.count_append, List.count_cons_self] at hcount
      omega
  rw [hback, List.getLast?_concat]

/-- **The shape of a fault list.** In whatever text, the faults that a collecting assembly reports
are those of the two stages by line: of each line at most one unexpected character and at most one
fault of the parser, which does not point into text that was skipped, and at the end a missing
`exit` where the instructions read hold none. -/
theorem reported_collect_listed (interactive : Bool) (text : String) :
    ∃ tokens lexical p parsing,
      Token.tokenize interactive text { policy := .collect } =
        .ok (tokens, ⟨.collect, lexical⟩) ∧
      ofTokens tokens ⟨.collect, lexical⟩ = .ok (p, ⟨.collect, lexical ++ parsing⟩) ∧
      (reported ⟨.collect, interactive⟩ text).Perm (lexical ++ parsing) ∧
      SourceFault.Listed (reported ⟨.collect, interactive⟩ text) ∧
      (.missingExit ∈ reported ⟨.collect, interactive⟩ text ↔ .exit ∉ p) := by
  have hperm : (reported ⟨.collect, interactive⟩ text).Perm (allFaults interactive text) := by
    rw [reported_eq_mergeSort]
    exact List.mergeSort_perm _ _
  have hapart := allFaults_apart interactive text
  have hsorted : (reported ⟨.collect, interactive⟩ text).Pairwise fun f g =>
      ∀ n, g.line? = some n → ∃ m, f.line? = some m ∧ m ≤ n := by
    rw [reported_eq_mergeSort]
    exact (List.pairwise_mergeSort faultLe_trans faultLe_total _).imp
      fun {f g} => exists_line_of_faultLe f g
  have hexit : (reported ⟨.collect, interactive⟩ text).count .missingExit ≤ 1 := by
    rw [hperm.count_eq]
    apply countP_le_one
    refine hapart.imp ?_
    intro f g hfg hf
    exact beq_eq_false_iff_ne.2 (hfg.exit (beq_iff_eq.1 hf))
  refine ⟨_, _, _, _, Token.tokenize_eq_outcome _ _ _, ofTokens_eq_outcome _ _, hperm,
    ⟨hsorted, ?_, ?_, ?_, ⟨hexit, getLast?_of_missingExit_mem _ hsorted hexit⟩, ?_⟩, ?_⟩
  · intro n
    rw [hperm.countP_eq]
    exact countP_line_le_one _ _ (hapart.imp fun hfg => hfg.character) n
  · intro n
    rw [hperm.countP_eq]
    exact countP_line_le_one _ _ (hapart.imp fun hfg => hfg.ofLine) n
  · rw [hperm.countP_eq]
    exact countP_le_one _ _ (hapart.imp fun hfg => hfg.terminator)
  · intro p c hcharacter f hf hline q hq hsame
    exact column_lt_of_mem_allFaults interactive text p c (hperm.mem_iff.1 hcharacter) f
      (hperm.mem_iff.1 hf) hline q hq hsame
  · rw [hperm.mem_iff]
    exact missingExit_mem_allFaults interactive text

/-- One line with both faults: the second `pop` stands in front of the text that is skipped. -/
example : allFaults false "pop pop @ ? pop\nexit" =
    [.unexpectedCharacter ⟨1, 9⟩ '@', .unexpectedToken ⟨1, 5⟩ "end of line" "pop"] := by
  decide +kernel

end Program

end NumStack
