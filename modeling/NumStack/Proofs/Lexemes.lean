import NumStack.Proofs.Lines
import NumStack.Proofs.Literals
import NumStack.Proofs.Outcome

/-!
# Words and literals as lexemes

A word in front of something that cannot continue it is cut off whole, and so is the literal of a
decimal in front of a closing parenthesis. Each becomes one token with its text.
-/

namespace NumStack

/-! ## Classes of characters -/

theorem code_of_range (c low high : Char) (h : c.val ≥ low.val ∧ c.val ≤ high.val) :
    low.toNat ≤ c.toNat ∧ c.toNat ≤ high.toNat :=
  ⟨UInt32.le_iff_toNat_le.1 h.1, UInt32.le_iff_toNat_le.1 h.2⟩

theorem code_of_isAlpha (c : Char) (h : c.isAlpha = true) :
    (65 ≤ c.toNat ∧ c.toNat ≤ 90) ∨ (97 ≤ c.toNat ∧ c.toNat ≤ 122) := by
  rcases Bool.or_eq_true_iff.1 h with hupper | hlower
  · have hrange : c.val ≥ 'A'.val ∧ c.val ≤ 'Z'.val := of_decide_eq_true hupper
    exact Or.inl (code_of_range c 'A' 'Z' hrange)
  · obtain ⟨hlow, hhigh⟩ := Bool.and_eq_true_iff.1 hlower
    exact Or.inr (code_of_range c 'a' 'z' ⟨of_decide_eq_true hlow, of_decide_eq_true hhigh⟩)

theorem code_of_isDigit (c : Char) (h : c.isDigit = true) : 48 ≤ c.toNat ∧ c.toNat ≤ 57 := by
  obtain ⟨hlow, hhigh⟩ := Bool.and_eq_true_iff.1 h
  exact code_of_range c '0' '9' ⟨of_decide_eq_true hlow, of_decide_eq_true hhigh⟩

theorem isDigit_of_isAlpha (c : Char) (h : c.isAlpha = true) : c.isDigit = false := by
  cases hdigit : c.isDigit with
  | false => rfl
  | true =>
    have hletter := code_of_isAlpha c h
    have hnumber := code_of_isDigit c hdigit
    omega

theorem isBlank_of_code (c : Char) (h : 33 ≤ c.toNat ∧ c.toNat ≤ 126) : isBlank c = false := by
  simp [isBlank, isWhiteSpace, whiteSpaceRanges]
  omega

namespace Lexeme

/-! ## Words -/

/-- A word is a letter and then letters and digits. -/
def isWord : List Char → Bool
  | [] => false
  | c :: cs => c.isAlpha && cs.all Char.isAlphanum

/-- A word is cut off where nothing continues it. -/
theorem cut_word (interactive : Bool) (c : Char) (cs rest : List Char)
    (hword : isWord (c :: cs) = true) (hrest : ∀ d ∈ rest.head?, d.isAlphanum = false) :
    cut interactive c (cs ++ rest) = ⟨.ofWord (String.ofList (c :: cs)), c :: cs, rest⟩ := by
  obtain ⟨hc, hcs⟩ := Bool.and_eq_true_iff.1 hword
  have hne : ∀ d : Char, d.isAlpha = false → c ≠ d := by
    rintro d hd rfl
    rw [hc] at hd
    cases hd
  have hrun : ∀ d ∈ c :: cs, d.isAlphanum = true := by
    intro d hd
    rcases List.mem_cons.1 hd with rfl | hd
    · simp [Char.isAlphanum, hc]
    · exact List.all_eq_true.1 hcs d hd
  obtain ⟨htake, hdrop⟩ := run_append_stop Char.isAlphanum (c :: cs) rest hrun hrest
  rw [List.cons_append] at htake hdrop
  rw [cut, if_neg (hne ';' rfl), if_neg (hne '\n' rfl), if_neg (hne '(' rfl), if_neg (hne ')' rfl),
    if_neg (by simp [hne '+' rfl, hne '-' rfl]), if_neg (by simp [isDigit_of_isAlpha c hc]),
    if_pos hc, run, htake, hdrop]

/-! ## Literals -/

/-- The token kind of the literal of a decimal. -/
def literalKind (d : Decimal) : TokenKind := if d.places = 0 then .integer else .decimal

/-- The text of a decimal is cut off as a numeral. -/
theorem numeral_text (sign : List Char) (d : Decimal) (rest : List Char) :
    numeral sign (d.text ++ ')' :: rest) = ⟨literalKind d, sign ++ d.text, ')' :: rest⟩ := by
  have hwhole := Decimal.isDigit_of_mem_toDigits (d.numerator / 10 ^ d.places)
  by_cases hd : d.places = 0
  · obtain ⟨htake, hdrop⟩ := run_append_stop Char.isDigit _ (')' :: rest) hwhole (by simp)
    have htext : d.text = Nat.toDigits 10 (d.numerator / 10 ^ d.places) := by
      rw [Decimal.text_eq, if_pos hd, List.append_nil]
    rw [numeral, htext, htake, hdrop, literalKind, if_pos hd]
    rfl
  · obtain ⟨fraction, htext, hlen, hfraction, -⟩ := d.exists_text_eq hd
    obtain ⟨htake, hdrop⟩ := run_append_stop Char.isDigit _ ('.' :: (fraction ++ ')' :: rest))
      hwhole (by simp)
    obtain ⟨htake', hdrop'⟩ := run_append_stop Char.isDigit fraction (')' :: rest) hfraction
      (by simp)
    -- there is a place, so a digit follows the point and the point belongs to the numeral
    obtain ⟨f, more, rfl⟩ := List.exists_cons_of_length_pos (show 0 < fraction.length by omega)
    rw [List.cons_append] at htake htake' hdrop hdrop'
    rw [numeral, htext, List.append_assoc, List.cons_append, List.cons_append, htake, hdrop]
    simp only
    rw [if_pos (hfraction f List.mem_cons_self), htake', hdrop', literalKind, if_neg hd,
      List.append_assoc]

theorem cut_sign (interactive : Bool) (c : Char) (cs : List Char) (hc : c = '+' ∨ c = '-')
    (hcs : cs.head?.any Char.isDigit = true) : cut interactive c cs = numeral [c] cs := by
  rcases hc with rfl | rfl
  all_goals
    rw [cut, if_neg (by decide), if_neg (by decide), if_neg (by decide), if_neg (by decide),
      if_pos (by simp [hcs])]

theorem cut_digit (interactive : Bool) (c : Char) (cs : List Char) (hc : c.isDigit = true) :
    cut interactive c cs = numeral [] (c :: cs) := by
  have hne : ∀ d : Char, d.isDigit = false → c ≠ d := by
    rintro d hd rfl
    rw [hc] at hd
    cases hd
  rw [cut, if_neg (hne ';' rfl), if_neg (hne '\n' rfl), if_neg (hne '(' rfl), if_neg (hne ')' rfl),
    if_neg (by simp [hne '+' rfl, hne '-' rfl]), if_pos hc]

/-- The literal of a signed decimal is cut off in front of a closing parenthesis. -/
theorem cut_literal (interactive negative : Bool) (d : Decimal) (rest : List Char) :
    ∃ c cs, (if negative then ['-'] else []) ++ d.text = c :: cs ∧ isBlank c = false ∧
      cut interactive c (cs ++ ')' :: rest) = ⟨literalKind d, c :: cs, ')' :: rest⟩ := by
  obtain ⟨c, cs, htext, hc⟩ := d.exists_text_cons
  have hnumeral : ∀ sign, numeral sign (c :: cs ++ ')' :: rest) =
      ⟨literalKind d, sign ++ c :: cs, ')' :: rest⟩ := by
    intro sign
    rw [← htext, numeral_text]
  cases negative with
  | true =>
    refine ⟨'-', c :: cs, by rw [htext]; rfl, by decide, ?_⟩
    rw [cut_sign _ _ _ (.inr rfl) (by simp [hc]), hnumeral]
    rfl
  | false =>
    have hcode := code_of_isDigit c hc
    refine ⟨c, cs, htext, isBlank_of_code c (by omega), ?_⟩
    rw [cut_digit _ _ _ hc, ← List.cons_append, hnumeral]
    rfl

end Lexeme

namespace Token

/-! ## Tokens from the front of a text -/

/-- A blank in front is skipped. -/
theorem lexed_blank (interactive : Bool) (c : Char) (cs : List Char) (pos : Position)
    (hc : isBlank c = true) :
    lexed interactive (c :: cs) pos = lexed interactive cs (pos.next c) := by
  have htake : (c :: cs).takeWhile isBlank = c :: cs.takeWhile isBlank :=
    List.takeWhile_cons_of_pos hc
  have hdrop : (c :: cs).dropWhile isBlank = cs.dropWhile isBlank := List.dropWhile_cons_of_pos hc
  cases hcs : cs.dropWhile isBlank with
  | nil =>
    rw [lexed_of_dropWhile_eq_nil _ _ _ (hdrop.trans hcs), lexed_of_dropWhile_eq_nil _ _ _ hcs,
      htake, Position.after_cons]
  | cons d tail =>
    rw [lexed_of_dropWhile_eq_cons _ _ _ _ _ (hdrop.trans hcs),
      lexed_of_dropWhile_eq_cons _ _ _ _ _ hcs, htake, Position.after_cons]

/-- **One token.** A lexeme in front that is no comment, no end marker and not invalid becomes the
first token. -/
theorem lexed_of_cut (interactive : Bool) (c : Char) (cs rest : List Char) (kind : TokenKind)
    (pos : Position) (hc : isBlank c = false)
    (hcut : Lexeme.cut interactive c (cs ++ rest) = ⟨kind, c :: cs, rest⟩)
    (hend : kind ≠ .endOfInput) (hcomment : kind ≠ .comment) (hinvalid : kind ≠ .invalid) :
    lexed interactive (c :: cs ++ rest) pos =
      (⟨kind, String.ofList (c :: cs), pos⟩ ::
          (lexed interactive rest (pos.after (c :: cs))).1,
        (lexed interactive rest (pos.after (c :: cs))).2) := by
  have htake : (c :: cs ++ rest).takeWhile isBlank = [] := by simp [hc]
  have hdrop : (c :: cs ++ rest).dropWhile isBlank = c :: (cs ++ rest) := by simp [hc]
  rw [lexed_of_dropWhile_eq_cons _ _ _ _ _ hdrop, htake, hcut, Position.after_nil]
  simp only [if_neg hend, if_neg hcomment, if_neg hinvalid]

end Token

end NumStack
