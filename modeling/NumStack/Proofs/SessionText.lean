import NumStack.Proofs.Assembled
import NumStack.Proofs.TerminatorLines

/-!
# The text of a session

A session stops reading at its first terminator line, drops the carriage return in front of each
newline and ends its last line with a newline. None of this changes what is assembled: the text of
the session and the whole stream have the same program, or neither has one. What the session leaves
unread stands behind a terminator, or behind a line that is faulty in any case.
-/

namespace NumStack

/-! ## Readings -/

namespace Token

/-- A token without its position. -/
def word (t : Token) : TokenKind × String := (t.kind, t.text)

/-- Two scanned texts are the same reading: both are faulty, or neither is and they have the same
words. -/
structure SameReading (x y : List Token × List SourceFault) : Prop where
  faultless : x.2 = [] ↔ y.2 = []
  words : x.2 = [] → x.1.map word = y.1.map word

theorem SameReading.of_faulty {x y : List Token × List SourceFault} (hx : x.2 ≠ [])
    (hy : y.2 ≠ []) : SameReading x y :=
  ⟨iff_of_false hx hy, fun h => absurd h hx⟩

theorem SameReading.append {x y : List Token × List SourceFault} (h : SameReading x y)
    (front front' : List Token) (hfront : front.map word = front'.map word) :
    SameReading (front ++ x.1, x.2) (front' ++ y.1, y.2) := by
  refine ⟨h.faultless, ?_⟩
  intro hx
  rw [List.map_append, List.map_append, hfront, h.words hx]

theorem forall₂_word_iff (ts us : List Token) :
    List.Forall₂ (fun t u => t.word = u.word) ts us ↔ ts.map word = us.map word := by
  rw [← forall₂_eq_iff_map, List.forall₂_map_right_iff]

/-- The words of a text do not depend on where it stands. -/
theorem map_word_lexed (interactive : Bool) (cs : List Char) (pos pos' : Position) :
    (lexed interactive cs pos).1.map word = (lexed interactive cs pos').1.map word := by
  obtain ⟨hwords, -⟩ := lexed_forall₂ (R := fun _ _ => True) (T := fun t u => t.word = u.word)
    (F := fun _ _ => True) (fun _ _ _ _ => trivial) (fun _ _ _ _ _ => rfl)
    (fun _ _ _ _ => trivial) (fun _ _ _ => trivial) interactive cs pos pos' trivial
  exact (forall₂_word_iff _ _).1 hwords

end Token

/-! ## Line ends -/

namespace Token

/-- A carriage return behind a legible text adds nothing. -/
theorem lexed_append_return (cs : List Char) (pos : Position) (hcs : Legible cs)
    (hsemicolon : ';' ∉ cs) :
    lexed false (cs ++ ['\r']) pos =
      ((lexed false cs pos).1.dropLast ++ [⟨.endOfFile, "", (pos.after cs).next '\r'⟩], []) := by
  rw [lexed_append_of_legible false cs ['\r'] pos hcs hsemicolon (by rintro c ⟨⟩; rfl),
    lexed_blank false '\r' [] _ rfl, lexed_of_dropWhile_eq_nil false [] _ rfl]
  rfl

/-- A carriage return behind a text does not make it legible. -/
theorem not_legible_append_return (cs : List Char) (hcs : ¬ Legible cs) (hnewline : '\n' ∉ cs)
    (hsemicolon : ';' ∉ cs) : ¬ Legible (cs ++ ['\r']) := by
  obtain ⟨tokens, p, c, hlexed⟩ := exists_lexed_of_not_legible cs .start hcs hnewline hsemicolon
    ['\r'] (by decide) (by rintro c ⟨⟩; rfl)
  have halone := hlexed false [] (by simp)
  rw [List.append_nil] at halone
  intro h
  rw [Legible, halone] at h
  cases h

/-! ## Faulty lines and legible lines -/

/-- A text without terminator lines that have a legible opening is faulty. -/
theorem lexed_faulty (cs : List Char) (pos : Position)
    (h : ∀ line ∈ cs.splitOn '\n',
      Session.endsInput line = true → ¬ Legible (Session.opening line)) :
    (lexed true cs pos).2 ≠ [] := by
  obtain ⟨n, hmem⟩ := (missingTerminator_mem_lexed cs pos).2 h
  exact List.ne_nil_of_mem hmem

theorem lexed_faulty_of_line (line rest : List Char) (pos : Position) (hline : '\n' ∉ line)
    (h : ¬ Legible (Session.opening line)) : (lexed true (line ++ '\n' :: rest) pos).2 ≠ [] := by
  obtain ⟨faults, -, hlegible, -, hmore⟩ := exists_faults_line line pos hline fun _ => h
  rw [hmore]
  exact List.append_ne_nil_of_left_ne_nil (fun hnil => h (hlegible.1 hnil)) _

/-- A line with a legible opening gives the tokens of its opening and a newline. -/
theorem lexed_line_of_legible (line rest : List Char) (pos : Position) (hline : '\n' ∉ line)
    (hends : Session.endsInput line = false) (hlegible : Legible (Session.opening line)) :
    lexed true (line ++ '\n' :: rest) pos =
      ((lexed false (Session.opening line) pos).1.dropLast ++ [⟨.newline, "\n", pos.after line⟩] ++
          (lexed true rest ((pos.after line).next '\n')).1,
        (lexed true rest ((pos.after line).next '\n')).2) := by
  have hopen : Session.endsInput line = true → ¬ Legible (Session.opening line) :=
    fun h => absurd h (Bool.eq_false_iff.1 hends)
  obtain ⟨tokens, faults, -, hfaults, htokens, hlexed⟩ := exists_lexed_line line pos hline hopen
  rw [hlexed _ (by rintro c ⟨⟩; rfl), htokens hlegible, hfaults.2 hlegible, lexed_newline,
    List.append_assoc]
  rfl

/-! ## Lines that say the same -/

/-- Two lines say the same: both are terminators or neither is, and their openings are both
illegible or have the same words. -/
structure SameLine (l m : List Char) : Prop where
  ends : Session.endsInput l = Session.endsInput m
  legible : Legible (Session.opening l) ↔ Legible (Session.opening m)
  words : Legible (Session.opening m) → ∀ pos pos',
    (lexed false (Session.opening l) pos).1.dropLast.map word =
      (lexed false (Session.opening m) pos').1.dropLast.map word

namespace SameLine

/-- A line says the same wherever it stands. -/
theorem refl (l : List Char) : SameLine l l where
  ends := rfl
  legible := Iff.rfl
  words := by
    intro _ pos pos'
    rw [List.map_dropLast, List.map_dropLast, map_word_lexed false _ pos pos']

/-- **A carriage return at the end of a line** says nothing. -/
theorem append_return (l : List Char) (h : '\n' ∉ l) : SameLine l (l ++ ['\r']) := by
  have hends := (Session.endsInput_concat l '\r' (by decide)).symm
  by_cases hsemicolon : ';' ∈ l
  · -- the carriage return is not in the opening
    have hopening : Session.opening (l ++ ['\r']) = Session.opening l :=
      (run_append_of_mem (· != ';') ';' rfl l ['\r'] hsemicolon).1
    have hself := refl l
    exact ⟨hends, hopening ▸ hself.legible, hopening ▸ hself.words⟩
  · have hopening := Session.opening_of_not_mem l hsemicolon
    have hopening' := Session.opening_of_not_mem (l ++ ['\r']) (by simp [hsemicolon])
    by_cases hlegible : Legible l
    · have hlexed := fun pos => lexed_append_return l pos hlegible hsemicolon
      have hreturn : Legible (l ++ ['\r']) := by rw [Legible, hlexed]
      refine ⟨hends, ?_, ?_⟩
      · rw [hopening, hopening']
        exact iff_of_true hlegible hreturn
      · intro _ pos pos'
        rw [hopening, hopening', hlexed, List.dropLast_concat, List.map_dropLast, List.map_dropLast,
          map_word_lexed false l pos pos']
    · have hreturn := not_legible_append_return l hlegible h hsemicolon
      refine ⟨hends, ?_, ?_⟩
      · rw [hopening, hopening']
        exact iff_of_false hlegible hreturn
      · intro h
        rw [hopening'] at h
        exact absurd h hreturn

/-- So a line says the same without it. -/
theorem dropReturn (l : List Char) (h : '\n' ∉ l) : SameLine (Session.dropReturn l) l := by
  obtain heq | heq := Session.dropReturn_cases l
  · rw [heq]
    exact refl l
  · have hsame := append_return (Session.dropReturn l) (Session.newline_not_mem_dropReturn l h)
    rwa [← heq] at hsame

variable {l m : List Char}

/-- Terminator lines that say the same, whatever follows them. -/
theorem terminator (h : SameLine l m) (rest rest' : List Char) (pos pos' : Position)
    (hends : Session.endsInput m = true) (hlegible : Legible (Session.opening m)) :
    SameReading (lexed true (l ++ rest) pos) (lexed true (m ++ rest') pos') := by
  rw [lexed_terminator_line l rest pos (h.ends.trans hends) (h.legible.2 hlegible),
    lexed_terminator_line m rest' pos' hends hlegible]
  refine ⟨Iff.rfl, fun _ => ?_⟩
  rw [List.map_append, List.map_append, h.words hlegible pos pos']
  rfl

/-- Other lines that say the same, in front of the same reading. -/
theorem line (h : SameLine l m) (hl : '\n' ∉ l) (hm : '\n' ∉ m) (text rest : List Char)
    (pos pos' : Position) (hends : Session.endsInput m = false)
    (hrest : ∀ pos pos', SameReading (lexed true text pos) (lexed true rest pos')) :
    SameReading (lexed true (l ++ '\n' :: text) pos) (lexed true (m ++ '\n' :: rest) pos') := by
  by_cases hlegible : Legible (Session.opening m)
  · rw [lexed_line_of_legible l text pos hl (h.ends.trans hends) (h.legible.2 hlegible),
      lexed_line_of_legible m rest pos' hm hends hlegible]
    apply (hrest _ _).append
    rw [List.map_append, List.map_append, h.words hlegible pos pos']
    rfl
  · apply SameReading.of_faulty
    · exact lexed_faulty_of_line l text pos hl fun h' => hlegible (h.legible.1 h')
    · exact lexed_faulty_of_line m rest pos' hm hlegible

end SameLine

/-- **A session says what its stream says.** The text of the session and the whole stream are the
same reading. -/
theorem exists_sameReading (cs : List Char) :
    ∃ text unread, Session.read? (Utf8.encode cs) = some (text, unread) ∧
      ∀ pos pos', SameReading (lexed true text pos) (lexed true cs pos') := by
  induction cs using lines_induction with
  | last line hline =>
    by_cases hempty : line = []
    · subst hempty
      refine ⟨[], [], by rw [Utf8.encode, List.flatMap_nil, Session.read?], ?_⟩
      intro pos pos'
      exact .of_faulty (lexed_faulty [] pos (by decide)) (lexed_faulty [] pos' (by decide))
    · refine ⟨line ++ ['\n'], [], Session.read?_encode_last line hline hempty, ?_⟩
      intro pos pos'
      by_cases hopen : Session.endsInput line = true → ¬ Legible (Session.opening line)
      · apply SameReading.of_faulty
        · apply lexed_faulty
          rw [List.splitOn_append_cons_self_of_not_mem hline, List.splitOn_nil,
            List.forall_mem_cons]
          exact ⟨hopen, by decide⟩
        · apply lexed_faulty
          rwa [List.splitOn_eq_singleton hline, List.forall_mem_singleton]
      · obtain ⟨hends, hlegible⟩ := Classical.not_imp.1 hopen
        have hsame := (SameLine.refl line).terminator ['\n'] [] pos pos' hends (not_not.1 hlegible)
        rwa [List.append_nil] at hsame
  | more line rest hline ih =>
    have hdrop := SameLine.dropReturn line hline
    have hline' := Session.newline_not_mem_dropReturn line hline
    cases hends : Session.endsInput line with
    | true =>
      refine ⟨Session.dropReturn line ++ ['\n'], Utf8.encode rest, ?_, ?_⟩
      · rw [Session.read?_encode_line line rest hline, if_pos hends]
      · intro pos pos'
        by_cases hlegible : Legible (Session.opening line)
        · exact hdrop.terminator _ _ pos pos' hends hlegible
        · apply SameReading.of_faulty
          · exact lexed_faulty_of_line _ [] pos hline' fun h => hlegible (hdrop.legible.1 h)
          · exact lexed_faulty_of_line line rest pos' hline hlegible
    | false =>
      obtain ⟨text, unread, hread, hsame⟩ := ih
      refine ⟨Session.dropReturn line ++ '\n' :: text, unread, ?_, ?_⟩
      · rw [Session.read?_encode_line line rest hline, if_neg (Bool.eq_false_iff.1 hends), hread]
        rfl
      · intro pos pos'
        exact hdrop.line hline' hline text rest pos pos' hends hsame

end Token

namespace Program

/-! ## Assembling a session -/

/-- Tokens with the same words are read alike. -/
theorem correspondence_word : Correspondence (fun t u => t.word = u.word) (fun _ _ => True) where
  kind h := .inl (congrArg Prod.fst h)
  text h _ := congrArg Prod.snd h
  unknownInstruction _ _ := trivial
  expectedKind _ := trivial
  expectedNumber _ := trivial
  unexpectedToken _ _ := trivial
  invalidOperand _ _ := trivial

/-- Texts that are the same reading are assembled to the same programs. -/
theorem assembleWith_of_sameReading (options : Options) (a b : String)
    (h : Token.SameReading (Token.lexed options.interactive a.toList .start)
      (Token.lexed options.interactive b.toList .start)) (p : Program) :
    assembleWith options a = .ok p ↔ assembleWith options b = .ok p := by
  rw [assembleWith_eq_ok_iff, assembleWith_eq_ok_iff, allFaults, allFaults,
    List.append_eq_nil_iff, List.append_eq_nil_iff, and_assoc, and_assoc, ← h.faultless]
  apply and_congr_right
  intro hfaultless
  obtain ⟨hprogram, hfaults⟩ := correspondence_word.linesRead _ _
    ((Token.forall₂_word_iff _ _).2 (h.words hfaultless)) (Token.lexed_stopped _ _)
  have hnil : (linesRead (tokensOf options.interactive a)).2 = [] ↔
      (linesRead (tokensOf options.interactive b)).2 = [] := by
    rw [← List.length_eq_zero_iff, ← List.length_eq_zero_iff, tokensOf, tokensOf, hfaults.length_eq]
  rw [parseFaults_eq_nil_iff, parseFaults_eq_nil_iff, hnil, tokensOf, tokensOf, hprogram]

/-- **Stopping early loses no program.** From the bytes of any stream of text a session is read, and
under either policy its text is assembled to a program exactly if the whole stream is, and to the
same program. -/
theorem assembleWith_session (stream : String) :
    ∃ text unread, Session.read? (Utf8.encode stream.toList) = some (text, unread) ∧
      ∀ policy p, assembleWith ⟨policy, true⟩ (String.ofList text) = .ok p ↔
        assembleWith ⟨policy, true⟩ stream = .ok p := by
  obtain ⟨text, unread, hread, hsame⟩ := Token.exists_sameReading stream.toList
  refine ⟨text, unread, hread, fun policy p => ?_⟩
  apply assembleWith_of_sameReading
  rw [String.toList_ofList]
  exact hsame .start .start

end Program

end NumStack
