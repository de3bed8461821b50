import NumStack.Proofs.Lexemes
import NumStack.Proofs.TokenLayout

/-!
# Breaks

A word or a number ends where a character follows that continues neither. So a source text in front
of such a break is cut into tokens as if it stood alone, unless it ends within a comment or within
what an unexpected character has made invalid. Up to the two semicolons that end a session, an
interactive text is cut into the tokens of a file.
-/

namespace NumStack

/-- Whether a character continues neither a word nor a number. -/
def isBreak (c : Char) : Bool := !c.isAlphanum && c != '.'

theorem isDigit_of_isBreak (c : Char) (h : isBreak c = true) : c.isDigit = false := by
  have halphanum := (Bool.and_eq_true_iff.1 h).1
  rw [Bool.not_eq_true', Char.isAlphanum, Bool.or_eq_false_iff] at halphanum
  exact halphanum.2

/-- A run ends within a text, or at its end, where what follows is of another class. -/
theorem run_append_of_head {α : Type} (p : α → Bool) (cs more : List α)
    (h : ∀ a ∈ more.head?, p a = false) :
    (cs ++ more).takeWhile p = cs.takeWhile p ∧
      (cs ++ more).dropWhile p = cs.dropWhile p ++ more := by
  induction cs with
  | nil => exact run_append_stop p [] more (List.forall_mem_nil _) h
  | cons c cs ih =>
    by_cases hc : p c = true
    · simpa [hc] using ih
    · simp [hc]

/-- A run that stops within a text stops there whatever follows. -/
theorem run_append_of_mem {α : Type} (p : α → Bool) (a : α) (ha : p a = false) (cs more : List α)
    (h : a ∈ cs) :
    (cs ++ more).takeWhile p = cs.takeWhile p ∧
      (cs ++ more).dropWhile p = cs.dropWhile p ++ more := by
  induction cs with
  | nil => cases h
  | cons c cs ih =>
    by_cases hc : p c = true
    · have hmem : a ∈ cs := by
        rcases List.mem_cons.1 h with rfl | h
        · rw [ha] at hc
          cases hc
        · exact h
      simpa [hc] using ih hmem
    · simp [hc]

namespace Lexeme

/-! ## The forms of a lexeme -/

/-- **The forms of a lexeme.** What its first character starts, unless it is a semicolon, and
whether a digit follows it decide how a lexeme is cut: as this character alone, as a numeral with or
without a sign, as a word, or as an invalid rest of the line. -/
theorem exists_form (c : Char) (hc : c ≠ ';') (digit : Bool) :
    ∃ form : List Char → Lexeme,
      (∀ interactive cs, cs.head?.any Char.isDigit = digit → cut interactive c cs = form cs) ∧
      ((∃ kind, kind ≠ .invalid ∧ form = fun cs => ⟨kind, [c], cs⟩) ∨ form = numeral [c] ∨
        (form = fun cs => numeral [] (c :: cs)) ∨
        (form = fun cs =>
          run (fun word => .ofWord (String.ofList word)) Char.isAlphanum (c :: cs)) ∨
        form = fun cs => toLineEnd .invalid (c :: cs)) := by
  by_cases hnewline : c = '\n'
  · refine ⟨fun cs => ⟨.newline, [c], cs⟩, fun interactive cs _ => ?_, .inl ⟨_, by decide, rfl⟩⟩
    rw [cut, if_neg hc, if_pos hnewline]
  by_cases hleft : c = '('
  · refine ⟨fun cs => ⟨.leftParen, [c], cs⟩, fun interactive cs _ => ?_, .inl ⟨_, by decide, rfl⟩⟩
    rw [cut, if_neg hc, if_neg hnewline, if_pos hleft]
  by_cases hright : c = ')'
  · refine ⟨fun cs => ⟨.rightParen, [c], cs⟩, fun interactive cs _ => ?_, .inl ⟨_, by decide, rfl⟩⟩
    rw [cut, if_neg hc, if_neg hnewline, if_neg hleft, if_pos hright]
  have hcut : ∀ interactive cs, cs.head?.any Char.isDigit = digit → cut interactive c cs =
      if (c = '+' || c = '-') && digit then numeral [c] cs
      else if c.isDigit then numeral [] (c :: cs)
      else if c.isAlpha then
        run (fun word => .ofWord (String.ofList word)) Char.isAlphanum (c :: cs)
      else toLineEnd .invalid (c :: cs) := by
    rintro interactive cs rfl
    rw [cut, if_neg hc, if_neg hnewline, if_neg hleft, if_neg hright]
  by_cases hsign : ((c = '+' || c = '-') && digit) = true
  · exact ⟨_, fun interactive cs h => (hcut interactive cs h).trans (if_pos hsign), .inr (.inl rfl)⟩
  by_cases hdigit : c.isDigit = true
  · refine ⟨_, fun interactive cs h => ?_, .inr (.inr (.inl rfl))⟩
    rw [hcut interactive cs h, if_neg hsign, if_pos hdigit]
  by_cases halpha : c.isAlpha = true
  · refine ⟨_, fun interactive cs h => ?_, .inr (.inr (.inr (.inl rfl)))⟩
    rw [hcut interactive cs h, if_neg hsign, if_neg hdigit, if_pos halpha]
  · refine ⟨_, fun interactive cs h => ?_, .inr (.inr (.inr (.inr rfl)))⟩
    rw [hcut interactive cs h, if_neg hsign, if_neg hdigit, if_neg halpha]

/-! ## Lexemes in front of a break -/

/-- A numeral with digits behind a point. -/
theorem numeral_of_fraction (sign cs : List Char) (d : Char) (tail : List Char)
    (h : cs.dropWhile Char.isDigit = '.' :: d :: tail) (hd : d.isDigit = true) :
    numeral sign cs = ⟨.decimal, sign ++ cs.takeWhile Char.isDigit ++
      '.' :: (d :: tail).takeWhile Char.isDigit, (d :: tail).dropWhile Char.isDigit⟩ := by
  unfold numeral
  rw [h]
  exact if_pos hd

/-- A numeral without digits behind a point. -/
theorem numeral_of_no_fraction (sign cs : List Char)
    (h : ∀ d tail, cs.dropWhile Char.isDigit = '.' :: d :: tail → d.isDigit = false) :
    numeral sign cs =
      ⟨.integer, sign ++ cs.takeWhile Char.isDigit, cs.dropWhile Char.isDigit⟩ := by
  unfold numeral
  split
  · rename_i d tail heq
    rw [if_neg (by simp [h d tail heq]), heq]
  · rfl

/-- A numeral in front of a break does not depend on what follows. -/
theorem numeral_append_of_break (sign cs more : List Char)
    (h : ∀ d ∈ more.head?, isBreak d = true) :
    numeral sign (cs ++ more) =
      ⟨(numeral sign cs).kind, (numeral sign cs).text, (numeral sign cs).rest ++ more⟩ := by
  have hdigit : ∀ d ∈ more.head?, d.isDigit = false := fun d hd => isDigit_of_isBreak d (h d hd)
  obtain ⟨htake, hdrop⟩ := run_append_of_head Char.isDigit cs more hdigit
  by_cases hfraction : ∃ d tail, cs.dropWhile Char.isDigit = '.' :: d :: tail ∧ d.isDigit = true
  · obtain ⟨d, tail, heq, hd⟩ := hfraction
    rw [heq] at hdrop
    obtain ⟨htake', hdrop'⟩ := run_append_of_head Char.isDigit (d :: tail) more hdigit
    rw [numeral_of_fraction sign _ d (tail ++ more) hdrop hd,
      numeral_of_fraction sign cs d tail heq hd, htake, ← List.cons_append, htake', hdrop']
  · have hcs : ∀ d tail, cs.dropWhile Char.isDigit = '.' :: d :: tail → d.isDigit = false := by
      intro d tail heq
      exact Bool.eq_false_iff.2 fun hd => hfraction ⟨d, tail, heq, hd⟩
    have hmore : ∀ d tail, (cs ++ more).dropWhile Char.isDigit = '.' :: d :: tail →
        d.isDigit = false := by
      -- a break is neither the point nor a digit behind it
      intro d tail heq
      rw [hdrop] at heq
      obtain ⟨-, hpoint⟩ | ⟨front, hfront, htail⟩ := List.append_eq_cons_iff.1 heq
      · have hbreak := h '.' (by rw [hpoint]; rfl)
        cases hbreak
      · obtain ⟨rfl, hd⟩ | ⟨front, rfl, -⟩ := List.cons_eq_append_iff.1 htail
        · exact hdigit d (by rw [hd]; rfl)
        · exact hcs d front hfront
    rw [numeral_of_no_fraction sign _ hmore, numeral_of_no_fraction sign cs hcs, htake, hdrop]

/-- A digit follows a sign in front of a break only if it stands in front of the break. -/
theorem head?_any_isDigit_append (cs more : List Char) (h : ∀ d ∈ more.head?, isBreak d = true) :
    (cs ++ more).head?.any Char.isDigit = cs.head?.any Char.isDigit := by
  cases cs with
  | cons d ds => rfl
  | nil =>
    cases more with
    | nil => rfl
    | cons d ds => simp [isDigit_of_isBreak d (h d rfl)]

/-- **A lexeme ends at a break.** Unless it goes on to the end of its line, it does not depend on
what follows a break behind it. -/
theorem cut_append_of_break (interactive : Bool) (c : Char) (cs more : List Char)
    (h : ∀ d ∈ more.head?, isBreak d = true) (hcomment : (cut interactive c cs).kind ≠ .comment)
    (hinvalid : (cut interactive c cs).kind ≠ .invalid) :
    cut interactive c (cs ++ more) = ⟨(cut interactive c cs).kind, (cut interactive c cs).text,
      (cut interactive c cs).rest ++ more⟩ := by
  have hword : ∀ d ∈ more.head?, d.isAlphanum = false := by
    intro d hd
    simpa using (Bool.and_eq_true_iff.1 (h d hd)).1
  by_cases hc : c = ';'
  · -- the second semicolon is part of the text
    subst hc
    have hend : (interactive && decide (cs.head? = some ';')) = true := by
      by_contra hend
      apply hcomment
      rw [cut, if_pos rfl, if_neg hend]
      rfl
    have hhead := of_decide_eq_true (Bool.and_eq_true_iff.1 hend).2
    obtain ⟨ds, rfl⟩ := List.head?_eq_some_iff.1 hhead
    rw [(Bool.and_eq_true_iff.1 hend).1]
    rfl
  · obtain ⟨form, hcut, hform⟩ := exists_form c hc (cs.head?.any Char.isDigit)
    rw [hcut interactive cs rfl] at hinvalid ⊢
    rw [hcut interactive (cs ++ more) (head?_any_isDigit_append cs more h)]
    obtain ⟨kind, -, rfl⟩ | rfl | rfl | rfl | rfl := hform
    · rfl
    · exact numeral_append_of_break [c] cs more h
    · exact numeral_append_of_break [] (c :: cs) more h
    · obtain ⟨htake, hdrop⟩ := run_append_of_head Char.isAlphanum (c :: cs) more hword
      beta_reduce
      rw [← List.cons_append, run, htake, hdrop, run]
    · exact absurd rfl hinvalid

theorem eq_semicolon_of_comment (interactive : Bool) (c : Char) (cs : List Char)
    (h : (cut interactive c cs).kind = .comment) : c = ';' := by
  obtain ⟨hkind, -⟩ | ⟨-, body, htext, -⟩ | htoken := cut_cases interactive c cs
  · rw [hkind] at h
    cases h
  · have hcut := cut_append interactive c cs
    rw [htext, List.cons_append] at hcut
    exact (List.cons.inj hcut).1.symm
  · exact absurd h (htoken.kind_ne .comment rfl TokenKind.noConfusion)

theorem ofWord_ne_invalid (word : String) : TokenKind.ofWord word ≠ .invalid := by
  unfold TokenKind.ofWord
  split
  · exact TokenKind.noConfusion
  · split <;> exact TokenKind.noConfusion

theorem numeral_kind_ne_invalid (sign cs : List Char) : (numeral sign cs).kind ≠ .invalid := by
  unfold numeral
  split
  · split <;> exact TokenKind.noConfusion
  · exact TokenKind.noConfusion

/-- A character that starts no token in front of a break spoils what is behind the break, too. -/
theorem cut_append_of_invalid (interactive : Bool) (c : Char) (cs more : List Char)
    (h : ∀ d ∈ more.head?, isBreak d = true) (hinvalid : (cut false c cs).kind = .invalid) :
    cut interactive c (cs ++ more) = toLineEnd .invalid (c :: cs ++ more) := by
  have hc : c ≠ ';' := by
    rintro rfl
    cases hinvalid
  obtain ⟨form, hcut, hform⟩ := exists_form c hc (cs.head?.any Char.isDigit)
  rw [hcut false cs rfl] at hinvalid
  rw [hcut interactive (cs ++ more) (head?_any_isDigit_append cs more h)]
  obtain ⟨kind, hkind, rfl⟩ | rfl | rfl | rfl | rfl := hform
  · exact absurd hinvalid hkind
  · exact absurd hinvalid (numeral_kind_ne_invalid _ _)
  · exact absurd hinvalid (numeral_kind_ne_invalid _ _)
  · exact absurd hinvalid (ofWord_ne_invalid _)
  · rfl

/-! ## Lexemes in front of a newline -/

/-- A numeral in front of a newline does not depend on what follows the newline. -/
theorem numeral_append_of_newline (sign cs more : List Char) (h : '\n' ∈ cs) :
    numeral sign (cs ++ more) =
      ⟨(numeral sign cs).kind, (numeral sign cs).text, (numeral sign cs).rest ++ more⟩ := by
  obtain ⟨front, back, rfl⟩ := List.append_of_mem h
  -- the newline is a break, so both numerals are that of the text in front of it
  have hnewline : ∀ back : List Char, ∀ d ∈ ('\n' :: back).head?, isBreak d = true := by
    intro back d hd
    cases hd
    rfl
  rw [List.append_assoc, List.cons_append, numeral_append_of_break sign front _ (hnewline _),
    numeral_append_of_break sign front _ (hnewline _), List.append_assoc, List.cons_append]

/-- **A lexeme ends with its line.** It does not depend on what follows a newline behind it. -/
theorem cut_append_of_newline (interactive : Bool) (c : Char) (cs more : List Char)
    (h : '\n' ∈ c :: cs) :
    cut interactive c (cs ++ more) = ⟨(cut interactive c cs).kind, (cut interactive c cs).text,
      (cut interactive c cs).rest ++ more⟩ := by
  by_cases hc : c = '\n'
  · subst hc
    rfl
  · have hcs : '\n' ∈ cs := by
      rcases List.mem_cons.1 h with rfl | h
      · exact absurd rfl hc
      · exact h
    have hhead : (cs ++ more).head? = cs.head? := by
      cases cs with
      | nil => cases hcs
      | cons d ds => rfl
    have htail : (cs ++ more).tail = cs.tail ++ more := by
      cases cs with
      | nil => cases hcs
      | cons d ds => rfl
    have hrun : ∀ (kind : List Char → TokenKind) (inRun : Char → Bool), inRun '\n' = false →
        run kind inRun (c :: (cs ++ more)) = ⟨(run kind inRun (c :: cs)).kind,
          (run kind inRun (c :: cs)).text, (run kind inRun (c :: cs)).rest ++ more⟩ := by
      intro kind inRun hstop
      obtain ⟨htake, hdrop⟩ := run_append_of_mem inRun '\n' hstop (c :: cs) more h
      rw [← List.cons_append, run, htake, hdrop, run]
    by_cases hsemicolon : c = ';'
    · rw [cut, cut, if_pos hsemicolon, if_pos hsemicolon, hhead, htail]
      split
      · rfl
      · exact hrun _ _ rfl
    · obtain ⟨form, hcut, hform⟩ := exists_form c hsemicolon (cs.head?.any Char.isDigit)
      rw [hcut interactive cs rfl, hcut interactive (cs ++ more) (by rw [hhead])]
      obtain ⟨kind, -, rfl⟩ | rfl | rfl | rfl | rfl := hform
      · rfl
      · exact numeral_append_of_newline [c] cs more hcs
      · exact numeral_append_of_newline [] (c :: cs) more h
      · exact hrun _ _ rfl
      · exact hrun _ _ rfl

/-! ## Lexemes of sessions and files -/

/-- Without a semicolon in front, lexemes are the same in a session and in a file. -/
theorem cut_eq_of_ne (interactive interactive' : Bool) (c : Char) (cs : List Char) (h : c ≠ ';') :
    cut interactive c cs = cut interactive' c cs := by
  unfold cut
  rw [if_neg h, if_neg h]

/-- Up to the end of a session, lexemes are those of a file. -/
theorem cut_eq_of_kind_ne (interactive : Bool) (c : Char) (cs : List Char)
    (h : (cut true c cs).kind ≠ .endOfInput) : cut interactive c cs = cut true c cs := by
  by_cases hc : c = ';'
  · subst hc
    have hsecond : ¬ cs.head? = some ';' := by
      intro hhead
      apply h
      rw [cut, if_pos rfl, if_pos (by rw [hhead]; rfl)]
    rw [cut, cut, if_pos rfl, if_pos rfl, if_neg (by simp [hsecond]), if_neg (by simp [hsecond])]
  · exact cut_eq_of_ne interactive true c cs hc

end Lexeme

namespace Token

/-! ## Tokens in front of a break -/

theorem lexed_blanks (interactive : Bool) (blanks cs : List Char) (pos : Position)
    (h : ∀ c ∈ blanks, isBlank c = true) :
    lexed interactive (blanks ++ cs) pos = lexed interactive cs (pos.after blanks) := by
  induction blanks generalizing pos with
  | nil => rfl
  | cons c blanks ih =>
    obtain ⟨hc, hblanks⟩ := List.forall_mem_cons.1 h
    rw [List.cons_append, lexed_blank interactive c _ pos hc, ih (pos.next c) hblanks,
      Position.after_cons]

theorem isBlank_of_dropWhile (cs : List Char) (c : Char) (tail : List Char)
    (h : cs.dropWhile isBlank = c :: tail) : isBlank c = false := by
  have hhead := List.head?_dropWhile_not isBlank cs
  rw [h] at hhead
  simpa using hhead

/-- The first lexeme of a text, and the tokens behind it, with more text at the end. -/
theorem lexed_append_of_cut (interactive : Bool) (a more : List Char) (pos : Position) (c : Char)
    (tail : List Char) (hcons : a.dropWhile isBlank = c :: tail) (l : Lexeme)
    (hcut : Lexeme.cut interactive c (tail ++ more) = ⟨l.kind, l.text, l.rest ++ more⟩)
    (hend : l.kind ≠ .endOfInput) :
    lexed interactive (a ++ more) pos =
      (let here := pos.after (a.takeWhile isBlank)
      let after := lexed interactive (l.rest ++ more) (here.after l.text)
      (if l.kind = .comment then after.1 else ⟨l.kind, String.ofList l.text, here⟩ :: after.1,
        if l.kind = .invalid then .unexpectedCharacter here c :: after.2 else after.2)) := by
  have hblanks : ∀ d ∈ a.takeWhile isBlank, isBlank d = true :=
    fun d hd => List.mem_takeWhile_imp hd
  have hc := isBlank_of_dropWhile a c tail hcons
  have hdrop : (c :: (tail ++ more)).dropWhile isBlank = c :: (tail ++ more) := by simp [hc]
  have htake : (c :: (tail ++ more)).takeWhile isBlank = [] := by simp [hc]
  conv_lhs => rw [← List.takeWhile_append_dropWhile (p := isBlank) (l := a), List.append_assoc,
    hcons, List.cons_append, lexed_blanks interactive _ _ pos hblanks,
    lexed_of_dropWhile_eq_cons interactive _ _ c _ hdrop, htake, hcut]
  exact if_neg hend

/-- **Scanning goes on behind a break.** Let scanning a text meet nothing wrong but its end, and let
no comment be open there. Then what follows a break is scanned as if it stood alone, in an
interactive session as in a file. -/
theorem exists_lexed_append_of_break (a : List Char) (pos : Position) (n : Nat)
    (h : (lexed true a pos).2 = [.missingTerminator n])
    (hsemicolon : ∀ front back, a = front ++ ';' :: back → '\n' ∈ back) :
    ∃ tokens, (∀ t ∈ tokens, t.isEnd = false) ∧
      ∀ interactive rest, (∀ c ∈ rest.head?, isBreak c = true) →
        lexed interactive (a ++ rest) pos =
          (tokens ++ (lexed interactive rest (pos.after a)).1,
            (lexed interactive rest (pos.after a)).2) := by
  fun_induction lexed true a pos with
  | case1 a pos here hnil =>
    refine ⟨[], List.forall_mem_nil _, ?_⟩
    intro interactive rest _
    exact lexed_blanks interactive a rest pos (List.dropWhile_eq_nil_iff.1 hnil)
  | case2 a pos here c tail hcons lexeme hend => cases h
  | case3 a pos here c tail hcons lexeme hend after ih =>
    have hsplit := blanks_append_cut true a c tail hcons
    have hinvalid : lexeme.kind ≠ .invalid := by
      intro hkind
      rw [if_pos hkind] at h
      cases h
    rw [if_neg hinvalid] at h
    have hrest : ∀ front back, lexeme.rest = front ++ ';' :: back → '\n' ∈ back := by
      intro front back heq
      apply hsemicolon (a.takeWhile isBlank ++ (lexeme.text ++ front)) back
      refine hsplit.symm.trans ?_
      rw [List.append_assoc, List.append_assoc, ← heq]
    obtain ⟨tokens, hends, hlexed⟩ := ih h hrest
    have hafter : (here.after lexeme.text).after lexeme.rest = pos.after a := by
      rw [← Position.after_append, ← Position.after_append, hsplit]
    rw [hafter] at hlexed
    -- a comment ends with its line, and anything else at the break
    have hlexeme : ∀ interactive rest, (∀ d ∈ rest.head?, isBreak d = true) →
        Lexeme.cut interactive c (tail ++ rest) =
          ⟨lexeme.kind, lexeme.text, lexeme.rest ++ rest⟩ := by
      intro interactive rest hbreak
      have hsame := Lexeme.cut_eq_of_kind_ne interactive c tail hend
      by_cases hnewline : '\n' ∈ c :: tail
      · rw [Lexeme.cut_append_of_newline interactive c tail rest hnewline, hsame]
      · have hcomment : (Lexeme.cut true c tail).kind ≠ .comment := by
          intro hkind
          obtain rfl := Lexeme.eq_semicolon_of_comment true c tail hkind
          apply hnewline
          apply List.mem_cons_of_mem
          apply hsemicolon (a.takeWhile isBlank)
          rw [← hcons, List.takeWhile_append_dropWhile]
        rw [Lexeme.cut_append_of_break interactive c tail rest hbreak (hsame ▸ hcomment)
          (hsame ▸ hinvalid), hsame]
    refine ⟨if lexeme.kind = .comment then tokens
      else ⟨lexeme.kind, String.ofList lexeme.text, here⟩ :: tokens, ?_, ?_⟩
    · split
      · exact hends
      · rename_i hcomment
        obtain ⟨hkind, -⟩ | ⟨hkind, -⟩ | htoken := Lexeme.cut_cases true c tail
        · exact absurd hkind hend
        · exact absurd hkind hcomment
        · exact List.forall_mem_cons.2 ⟨htoken.isEnd_eq _ _, hends⟩
    · intro interactive rest hbreak
      rw [lexed_append_of_cut interactive a rest pos c tail hcons lexeme
        (hlexeme interactive rest hbreak) hend]
      show (if lexeme.kind = .comment then (lexed interactive (lexeme.rest ++ rest) _).1
        else _ :: (lexed interactive (lexeme.rest ++ rest) _).1, _) = _
      rw [hlexed interactive rest hbreak, if_neg hinvalid]
      split <;> rfl

end Token

end NumStack
