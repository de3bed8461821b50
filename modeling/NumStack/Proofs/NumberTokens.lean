import NumStack.Proofs.FaultShape

/-!
# Numbers of a source text

Numbers are recognised in two places: where a text is cut into tokens, and where an operand is built
from a literal. Both take the same texts, those of the grammar of literals. So an operand can be
refused for the form of its literal only if that is a decimal under an integer kind.
-/

namespace NumStack

namespace Literal

/-! ## Literals as lexemes -/

variable (l : Literal)

/-- The kind of token that a literal makes. -/
def tokenKind : TokenKind :=
  match l.fraction? with
  | none => .integer
  | some _ => .decimal

theorem tokenKind_eq_decimal_iff : l.tokenKind = .decimal ↔ '.' ∈ l.chars := by
  rw [point_mem_chars_iff, tokenKind]
  cases l.fraction? <;> simp

theorem tokenKind_cases : l.tokenKind = .integer ∨ l.tokenKind = .decimal := by
  rw [tokenKind]
  cases l.fraction? with
  | none => exact .inl rfl
  | some ds => exact .inr rfl

/-- A text is a numeric literal if it is the text of a literal. -/
theorem isLiteral_iff (text : String) :
    Decimal.isLiteral text.toList = true ↔ ∃ l : Literal, l.text = text := by
  rw [Decimal.isLiteral, ← not_iff_not, ← ofLiteral?_eq_none_iff]
  simp

theorem exists_digits_takeWhile (cs : List Char) (h : cs.head?.any Char.isDigit = true) :
    ∃ ds : Digits, ds.chars = cs.takeWhile Char.isDigit := by
  refine ⟨⟨cs.takeWhile Char.isDigit, ?_, fun c hc => List.mem_takeWhile_imp hc⟩, rfl⟩
  cases cs with
  | nil => cases h
  | cons c cs =>
    rw [List.takeWhile_cons_of_pos (by simpa using h)]
    exact List.cons_ne_nil _ _

/-- **A numeral is a literal.** What starts with a digit is cut off as a literal behind its sign. -/
theorem exists_numeral_eq (sign? : Option Sign) (cs : List Char)
    (h : cs.head?.any Char.isDigit = true) :
    ∃ (l : Literal) (rest : List Char),
      Lexeme.numeral (sign?.map Sign.char).toList cs = ⟨l.tokenKind, l.chars, rest⟩ := by
  obtain ⟨whole, hwhole⟩ := exists_digits_takeWhile cs h
  by_cases hfraction : ∃ d tail, cs.dropWhile Char.isDigit = '.' :: d :: tail ∧ d.isDigit = true
  · obtain ⟨d, tail, hdrop, hd⟩ := hfraction
    obtain ⟨ds, hds⟩ := exists_digits_takeWhile (d :: tail) hd
    refine ⟨⟨sign?, whole, some ds⟩, (d :: tail).dropWhile Char.isDigit, ?_⟩
    rw [Lexeme.numeral_of_fraction _ _ d tail hdrop hd, ← hwhole, ← hds, List.append_assoc]
    rfl
  · refine ⟨⟨sign?, whole, none⟩, cs.dropWhile Char.isDigit, ?_⟩
    rw [Lexeme.numeral_of_no_fraction, ← hwhole, chars, unsigned, List.append_nil]
    · rfl
    · intro d tail hdrop
      exact Bool.eq_false_iff.2 fun hd => hfraction ⟨d, tail, hdrop, hd⟩

/-- **A literal is a numeral.** The text behind the sign is cut off whole. -/
theorem numeral_unsigned (sign : List Char) :
    Lexeme.numeral sign l.unsigned = ⟨l.tokenKind, sign ++ l.unsigned, []⟩ := by
  have hdigits : ∀ (ds : Digits) (rest : List Char), (∀ c ∈ rest.head?, c.isDigit = false) →
      (ds.chars ++ rest).takeWhile Char.isDigit = ds.chars ∧
        (ds.chars ++ rest).dropWhile Char.isDigit = rest :=
    fun ds rest hrest => run_append_stop Char.isDigit ds.chars rest ds.isDigit hrest
  unfold unsigned tokenKind
  cases l.fraction? with
  | none =>
    obtain ⟨htake, hdrop⟩ := hdigits l.whole [] (by simp)
    rw [List.append_nil] at htake hdrop ⊢
    rw [Lexeme.numeral_of_no_fraction _ _ (by simp [hdrop]), htake, hdrop]
  | some ds =>
    obtain ⟨htake, hdrop⟩ := hdigits l.whole ('.' :: ds.chars) (by simp)
    obtain ⟨htake', hdrop'⟩ := hdigits ds [] (by simp)
    obtain ⟨d, more, hds⟩ := List.exists_cons_of_ne_nil ds.ne_nil
    have hd : d.isDigit = true := ds.isDigit d (by simp [hds])
    rw [List.append_nil, hds] at htake' hdrop'
    rw [hds] at htake hdrop
    dsimp only
    rw [hds, Lexeme.numeral_of_fraction _ _ d more hdrop hd, htake, htake', hdrop',
      List.append_assoc]

theorem exists_unsigned_eq_cons :
    ∃ c cs, l.unsigned = c :: cs ∧ c.isDigit = true := by
  obtain ⟨c, cs, hwhole⟩ := List.exists_cons_of_ne_nil l.whole.ne_nil
  refine ⟨c, _, by rw [unsigned, hwhole, List.cons_append], l.whole.isDigit c (by simp [hwhole])⟩

/-- The characters of a literal are cut off whole. -/
theorem exists_cut_chars (interactive : Bool) :
    ∃ c cs, l.chars = c :: cs ∧ isBlank c = false ∧
      Lexeme.cut interactive c cs = ⟨l.tokenKind, c :: cs, []⟩ := by
  obtain ⟨c, cs, hunsigned, hc⟩ := l.exists_unsigned_eq_cons
  have hnumeral := l.numeral_unsigned
  unfold chars
  cases l.sign? with
  | none =>
    have hcode := code_of_isDigit c hc
    refine ⟨c, cs, hunsigned, isBlank_of_code c (by omega), ?_⟩
    rw [Lexeme.cut_digit _ _ _ hc, ← hunsigned, hnumeral]
    rfl
  | some s =>
    refine ⟨s.char, l.unsigned, rfl, by cases s <;> decide, ?_⟩
    rw [Lexeme.cut_sign _ _ _ (by cases s <;> simp [Sign.char]) (by simp [hunsigned, hc]), hnumeral]
    rfl

end Literal

namespace Lexeme

theorem ofWord_ne_number (word : String) :
    TokenKind.ofWord word ≠ .integer ∧ TokenKind.ofWord word ≠ .decimal := by
  unfold TokenKind.ofWord
  split
  · exact ⟨TokenKind.noConfusion, TokenKind.noConfusion⟩
  · split <;> exact ⟨TokenKind.noConfusion, TokenKind.noConfusion⟩

/-- **A number that is cut off is a literal.** -/
theorem exists_literal_of_cut (interactive : Bool) (c : Char) (cs : List Char)
    (h : (cut interactive c cs).kind = .integer ∨ (cut interactive c cs).kind = .decimal) :
    ∃ l : Literal, (cut interactive c cs).kind = l.tokenKind ∧
      (cut interactive c cs).text = l.chars := by
  -- a numeral behind a sign or none is a literal, and nothing else is a number
  have hnumeral : ∀ (sign? : Option Sign) (cs : List Char), cs.head?.any Char.isDigit = true →
      ∃ l : Literal, (numeral (sign?.map Sign.char).toList cs).kind = l.tokenKind ∧
        (numeral (sign?.map Sign.char).toList cs).text = l.chars := by
    intro sign? cs hcs
    obtain ⟨l, rest, hl⟩ := Literal.exists_numeral_eq sign? cs hcs
    rw [hl]
    exact ⟨l, rfl, rfl⟩
  generalize hl : cut interactive c cs = lexeme at h ⊢
  unfold cut at hl
  repeat' split at hl
  all_goals subst hl
  -- the end of a session, a comment, a newline and the parentheses
  · rcases h with h | h <;> cases h
  · rcases h with h | h <;> cases h
  · rcases h with h | h <;> cases h
  · rcases h with h | h <;> cases h
  · rcases h with h | h <;> cases h
  · rename_i hsign
    obtain ⟨hc, hcs⟩ := Bool.and_eq_true_iff.1 hsign
    rw [Bool.or_eq_true, decide_eq_true_iff, decide_eq_true_iff] at hc
    rcases hc with rfl | rfl
    · exact hnumeral (some .plus) cs hcs
    · exact hnumeral (some .minus) cs hcs
  · rename_i hdigit
    exact hnumeral none (c :: cs) hdigit
  · rcases h with h | h
    · exact absurd h (ofWord_ne_number _).1
    · exact absurd h (ofWord_ne_number _).2
  · rcases h with h | h <;> cases h

end Lexeme

namespace Token

/-! ## Number tokens -/

theorem isNumber_iff (t : Token) : t.isNumber = true ↔ t.kind = .integer ∨ t.kind = .decimal := by
  rw [isNumber, Bool.or_eq_true, decide_eq_true_iff, decide_eq_true_iff]

/-- **Number tokens are literals.** -/
theorem exists_literal_of_mem_lexed (interactive : Bool) (cs : List Char) (pos : Position) :
    ∀ t ∈ (lexed interactive cs pos).1, t.isNumber = true →
      ∃ l : Literal, t.kind = l.tokenKind ∧ t.text = l.text := by
  intro t ht hnumber
  rw [isNumber_iff] at hnumber
  obtain ⟨-, ⟨hend, -⟩ | ⟨c, tail, hkind, -, htext⟩⟩ :=
    exists_cut_of_mem_lexed interactive cs pos t ht
  · rw [hend] at hnumber
    rcases hnumber with h | h <;> cases h
  · rw [hkind] at hnumber
    obtain ⟨l, hkind', htext'⟩ := Lexeme.exists_literal_of_cut interactive c tail hnumber
    exact ⟨l, hkind.trans hkind', by rw [htext, htext', Literal.text]⟩

/-- **A literal is one number token.** -/
theorem lexed_literal (l : Literal) :
    lexed false l.chars .start = ([⟨l.tokenKind, l.text, .start⟩,
      ⟨.endOfFile, "", Position.start.after l.chars⟩], []) := by
  obtain ⟨c, cs, hchars, hblank, hcut⟩ := l.exists_cut_chars false
  have hkind : ∀ kind, kind ≠ .integer → kind ≠ .decimal → l.tokenKind ≠ kind := by
    rintro kind hinteger hdecimal rfl
    rcases l.tokenKind_cases with h | h
    · exact hinteger h
    · exact hdecimal h
  have hlexed := lexed_of_cut false c cs [] l.tokenKind .start hblank
    (by rwa [List.append_nil]) (hkind _ (by decide) (by decide)) (hkind _ (by decide) (by decide))
    (hkind _ (by decide) (by decide))
  rw [List.append_nil, lexed_of_dropWhile_eq_nil false [] _ rfl] at hlexed
  rw [Literal.text, hchars, hlexed]
  rfl

end Token

namespace Program

/-! ## Refused literals -/

/-- Assembly that fails in its second stage has been through the first. -/
theorem tokenize_of_assembleWith_error (options : Options) (text : String)
    (faults : List SourceFault) (h : assembleWith options text = .error faults)
    (fault : SourceFault) (hmem : fault ∈ faults) (hfault : fault.isLexical = false) :
    ∃ report, Token.tokenize options.interactive text { policy := options.policy } =
      .ok (tokensOf options.interactive text, report) := by
  obtain ⟨policy, interactive⟩ := options
  rw [Token.tokenize_eq_outcome]
  cases policy with
  | collect => exact ⟨_, rfl⟩
  | failFast =>
    -- the first fault that is met is the one reported, so no lexical fault is met
    have hnone : (Token.lexed interactive text.toList .start).2 = [] := by
      have hlexical := Token.isLexical_of_mem_lexed interactive text.toList .start
      rw [assembleWith_failFast, allFaults] at h
      cases hlexed : (Token.lexed interactive text.toList .start).2 with
      | nil => rfl
      | cons first rest =>
        rw [hlexed] at h hlexical
        cases h
        rw [List.mem_singleton.1 hmem, hlexical first List.mem_cons_self] at hfault
        cases hfault
    dsimp only
    rw [hnone, Report.outcome_nil]
    exact ⟨_, rfl⟩

/-- **A literal refused for its form** is a decimal under an integer kind. -/
theorem decimal_of_invalidLiteral (interactive : Bool) (text : String) (p : Position) (kind : Kind)
    (literal : String)
    (h : .invalidOperand p (.invalidLiteral kind literal) ∈ allFaults interactive text) :
    kind.isInteger = true ∧ ∃ front k opened rest,
      tokensOf interactive text = front ++ k :: (opened ++ ⟨.decimal, literal, p⟩ :: rest) ∧
        k.kind = .type kind ∧ Grammar.Opening opened := by
  obtain ⟨above, taken, n, below, htokens, -, -, -, hrefusal⟩ :=
    refusesLine_of_mem_allFaults interactive text _ h rfl
  cases hrefusal with
  | literal i k n o kind' opened cause hi hk hopened hn hcause =>
    obtain ⟨rfl, rfl, hwhy⟩ := (Operand.ofLiteral_eq_invalidLiteral_iff _ _ _ _).1 hcause
    obtain ⟨l, hkind, htext⟩ := Token.exists_literal_of_mem_lexed interactive text.toList .start n
      (by rw [show (Token.lexed interactive text.toList .start).1 = _ from htokens]; simp) hn
    obtain hnot | ⟨hinteger, hpoint⟩ := hwhy
    · exact absurd ⟨l, htext.symm⟩ hnot
    · have hdecimal : n.kind = .decimal := by
        rw [hkind, l.tokenKind_eq_decimal_iff]
        rwa [htext, Literal.text, String.toList_ofList] at hpoint
      refine ⟨hinteger, above ++ [i], k, opened, below, ?_, hk, hopened⟩
      rw [htokens, ← hdecimal]
      simp

/-- **Numbers are recognised alike.** An operand is refused for the form of its literal if that is
no numeric literal, or has a point under an integer kind. The numeric literals are the texts that
are cut, as files, into one number. In any source text every number token is such a literal, and a
decimal if it has a point. So assembly refuses an operand for the form of its literal only where a
decimal stands behind an integer kind. -/
theorem numbers_recognised_alike :
    (∀ kind s, Operand.ofLiteral kind s = .error (.invalidLiteral kind s) ↔
      Decimal.isLiteral s.toList = false ∨ (kind.isInteger = true ∧ '.' ∈ s.toList)) ∧
    (∀ s : String, Decimal.isLiteral s.toList = true ↔ ∃ t e report,
      Token.tokenize false s { policy := .failFast } = .ok ([t, e], report) ∧
        t.isNumber = true ∧ t.text = s ∧ e.kind = .endOfFile) ∧
    (∀ interactive text report report' tokens,
      Token.tokenize interactive text report = .ok (tokens, report') →
        ∀ t ∈ tokens, t.isNumber = true → Decimal.isLiteral t.text.toList = true ∧
          (t.kind = .decimal ↔ '.' ∈ t.text.toList)) ∧
    ∀ options text faults, assembleWith options text = .error faults → ∀ p kind literal,
      .invalidOperand p (.invalidLiteral kind literal) ∈ faults →
        kind.isInteger = true ∧ ∃ tokens report front k opened rest,
          Token.tokenize options.interactive text { policy := options.policy } =
            .ok (tokens, report) ∧
          tokens = front ++ k :: (opened ++ ⟨.decimal, literal, p⟩ :: rest) ∧
          k.kind = .type kind ∧ Grammar.Opening opened := by
  have htokens : ∀ interactive text report report' tokens,
      Token.tokenize interactive text report = .ok (tokens, report') → ∀ t ∈ tokens,
        t.isNumber = true → ∃ l : Literal, t.kind = l.tokenKind ∧ t.text = l.text := by
    intro interactive text report report' tokens h t ht
    rw [Token.tokenize_eq_outcome] at h
    rw [Report.value_of_outcome _ _ _ _ _ h] at ht
    exact Token.exists_literal_of_mem_lexed interactive text.toList .start t ht
  refine ⟨?_, ?_, ?_, ?_⟩
  · intro kind s
    rw [Operand.ofLiteral_eq_invalidLiteral_iff, ← Literal.isLiteral_iff, Bool.not_eq_true]
    simp only [true_and]
  · intro s
    rw [Literal.isLiteral_iff]
    constructor
    · rintro ⟨l, rfl⟩
      refine ⟨⟨l.tokenKind, l.text, .start⟩, ⟨.endOfFile, "", Position.start.after l.chars⟩,
        { policy := .failFast }, ?_, ?_, rfl, rfl⟩
      · rw [Token.tokenize_eq_outcome, Literal.text, String.toList_ofList, Token.lexed_literal]
        exact Report.outcome_nil _ _
      · exact (Token.isNumber_iff _).2 l.tokenKind_cases
    · rintro ⟨t, e, report, h, hnumber, rfl, -⟩
      obtain ⟨l, -, htext⟩ := htokens _ _ _ _ _ h t List.mem_cons_self hnumber
      exact ⟨l, htext.symm⟩
  · intro interactive text report report' tokens h t ht hnumber
    obtain ⟨l, hkind, htext⟩ := htokens _ _ _ _ _ h t ht hnumber
    refine ⟨(Literal.isLiteral_iff _).2 ⟨l, htext.symm⟩, ?_⟩
    rw [hkind, htext, l.tokenKind_eq_decimal_iff, Literal.text, String.toList_ofList]
  · intro options text faults h p kind literal hmem
    obtain ⟨report, hreport⟩ := tokenize_of_assembleWith_error options text faults h _ hmem rfl
    obtain ⟨hinteger, front, k, opened, rest, htext, hk, hopened⟩ :=
      decimal_of_invalidLiteral options.interactive text p kind literal
        (mem_allFaults_of_assembleWith options text faults h _ hmem)
    exact ⟨hinteger, _, report, front, k, opened, rest, hreport, htext, hk, hopened⟩

/-- A decimal under an integer kind, in parentheses. -/
theorem numbers_recognised_alike_fraction :
    assembleWith {} "exit\npush int8(-1.50)" =
        .error [.invalidOperand ⟨2, 11⟩ (.invalidLiteral .int8 "-1.50")] ∧
      ∃ tokens report, Token.tokenize false "exit\npush int8(-1.50)" { policy := .failFast } =
        .ok (tokens, report) ∧ ⟨.decimal, "-1.50", ⟨2, 11⟩⟩ ∈ tokens := by
  have h : assembleWith {} "exit\npush int8(-1.50)" =
      .error [.invalidOperand ⟨2, 11⟩ (.invalidLiteral .int8 "-1.50")] := by decide +kernel
  obtain ⟨-, tokens, report, front, k, opened, rest, htokens, rfl, -⟩ :=
    numbers_recognised_alike.2.2.2 {} _ _ h ⟨2, 11⟩ .int8 "-1.50" List.mem_cons_self
  exact ⟨h, _, report, htokens, by simp⟩

end Program

end NumStack
