import NumStack.Proofs.Grammar
import NumStack.Proofs.Lexemes

/-!
# Listings are read back

The canonical listing of a program assembles to the program again. Every line of the listing is cut
into the tokens of a statement of its instruction, whose literal denotes the operand it was written
for; the tokens of all lines derive the statements of the whole program.
-/

namespace NumStack

/-! ## The words of the language -/

theorem Opcode.isWord_mnemonic (o : Opcode) : Lexeme.isWord o.mnemonic.toList = true := by
  cases o with
  | arith op => cases op <;> decide
  | _ => decide

theorem Kind.isWord_name (k : Kind) : Lexeme.isWord k.name.toList = true := by
  cases k <;> decide

namespace TokenKind

theorem ofWord_mnemonic (o : Opcode) : ofWord o.mnemonic = .opcode o := by
  rw [ofWord, Opcode.ofMnemonic?_mnemonic]

/-- No mnemonic is the name of a kind, so a name is the word of its kind. -/
theorem ofWord_name (k : Kind) : ofWord k.name = .type k := by
  have hnone : Opcode.ofMnemonic? k.name = none := by cases k <;> decide
  rw [ofWord, hnone, Kind.ofName?_name]

/-- A word is an instruction, a kind or unknown. -/
theorem ofWord_cases (word : String) :
    (∃ o, ofWord word = .opcode o) ∨ (∃ k, ofWord word = .type k) ∨ ofWord word = .unknown := by
  unfold ofWord
  split
  · exact Or.inl ⟨_, rfl⟩
  · split
    · exact Or.inr (Or.inl ⟨_, rfl⟩)
    · exact Or.inr (Or.inr rfl)

end TokenKind

namespace Instruction

theorem simple?_opcode (i : Instruction) (h : i.value? = none) :
    i.opcode.takesValue = false ∧ simple? i.opcode = some i := by
  cases i with
  | push v | assert v => cases h
  | pop | dump | arith op | print | exit => exact ⟨rfl, rfl⟩

theorem withValue?_opcode (i : Instruction) (v : Operand) (h : i.value? = some v) :
    i.opcode.takesValue = true ∧ withValue? i.opcode v = some i := by
  cases i with
  | push w | assert w =>
    cases h
    exact ⟨rfl, rfl⟩
  | pop | dump | arith op | print | exit => cases h

end Instruction

namespace Token

/-! ## The tokens of an instruction -/

variable (interactive : Bool)

/-- A word in front of something that does not continue it becomes one token. -/
theorem lexed_word (word : String) (rest : List Char) (pos : Position)
    (hword : Lexeme.isWord word.toList = true) (hrest : ∀ d ∈ rest.head?, d.isAlphanum = false) :
    lexed interactive (word.toList ++ rest) pos =
      (⟨.ofWord word, word, pos⟩ :: (lexed interactive rest (pos.after word.toList)).1,
        (lexed interactive rest (pos.after word.toList)).2) := by
  have htext : String.ofList word.toList = word := String.ofList_toList
  cases hcs : word.toList with
  | nil =>
    rw [hcs] at hword
    cases hword
  | cons c cs =>
    rw [hcs] at hword htext
    have hc := code_of_isAlpha c (Bool.and_eq_true_iff.1 hword).1
    have hcut := Lexeme.cut_word interactive c cs rest hword hrest
    rw [htext] at hcut
    rw [lexed_of_cut interactive c cs rest (.ofWord word) pos (isBlank_of_code c (by omega)) hcut,
      htext]
    all_goals
      rcases TokenKind.ofWord_cases word with ⟨o, h⟩ | ⟨k, h⟩ | h <;> simp [h]

/-- A value is cut into its kind and its literal in parentheses. -/
theorem lexed_value (v : Operand) (hv : v.isFinite = true) (rest : List Char) (pos : Position) :
    ∃ ts pos', Grammar.Value ts v.kind v.text ∧
      lexed interactive (v.typedText.toList ++ rest) pos =
        (ts ++ (lexed interactive rest pos').1, (lexed interactive rest pos').2) := by
  obtain ⟨negative, d, hd⟩ := v.exists_decimal hv
  obtain ⟨c, cs, hcs, hblank, hcut⟩ := Lexeme.cut_literal interactive negative d rest
  have htext : v.text = String.ofList (c :: cs) := by rw [Operand.text, hd.chars_eq, hcs]
  have hsource : v.typedText.toList ++ rest =
      v.kind.name.toList ++ (['('] ++ (c :: cs ++ ([')'] ++ rest))) := by
    simp [Operand.typedText, htext]
  have hnumber : ∀ pos, (Token.mk (Lexeme.literalKind d) v.text pos).isNumber = true := by
    intro pos
    unfold isNumber Lexeme.literalKind
    by_cases hplaces : d.places = 0 <;> simp [hplaces]
  have hkind : ∀ k, (Token.mk k "" pos).isNumber = false → Lexeme.literalKind d ≠ k := by
    rintro k hk rfl
    rw [show (Token.mk (Lexeme.literalKind d) "" pos).isNumber = true from hnumber pos] at hk
    cases hk
  rw [hsource, lexed_word interactive v.kind.name _ pos v.kind.isWord_name (by simp),
    TokenKind.ofWord_name,
    lexed_of_cut interactive '(' [] _ .leftParen _ (by decide) rfl (by decide) (by decide)
      (by decide),
    lexed_of_cut interactive c cs ([')'] ++ rest) (Lexeme.literalKind d) _ hblank hcut (hkind _ rfl)
      (hkind _ rfl) (hkind _ rfl),
    lexed_of_cut interactive ')' [] rest .rightParen _ (by decide) rfl (by decide) (by decide)
      (by decide), ← htext]
  refine ⟨[_, _, _, _], _, ?_, rfl⟩
  exact .mk _ v.kind _ _ rfl (.enclosed _ _ _ rfl (hnumber _) rfl)

/-- A line of a listing is cut into the tokens of a statement of its instruction, and a newline. -/
theorem lexed_instruction (i : Instruction) (hi : ∀ v ∈ i.value?, v.isFinite = true)
    (rest : List Char) (pos : Position) :
    ∃ ts s newline pos', Grammar.Instruction ts s ∧ s.instruction? = some i ∧
      newline.isNewline = true ∧
      lexed interactive (i.text.toList ++ '\n' :: rest) pos =
        (ts ++ newline :: (lexed interactive rest pos').1, (lexed interactive rest pos').2) := by
  have hnewline : ∀ pos, lexed interactive ('\n' :: rest) pos =
      (⟨.newline, "\n", pos⟩ :: (lexed interactive rest (pos.after ['\n'])).1,
        (lexed interactive rest (pos.after ['\n'])).2) := fun pos =>
    lexed_of_cut interactive '\n' [] rest .newline pos isBlank_newline rfl (by decide) (by decide)
      (by decide)
  cases hvalue : i.value? with
  | none =>
    have htext : i.text = i.opcode.mnemonic := by rw [Instruction.text, hvalue]
    have hsimple := i.simple?_opcode hvalue
    rw [htext, lexed_word interactive _ _ pos i.opcode.isWord_mnemonic (by simp),
      TokenKind.ofWord_mnemonic, hnewline]
    refine ⟨[_], .simple i.opcode, _, _, .simple _ i.opcode rfl hsimple.1, hsimple.2, ?_, rfl⟩
    rfl
  | some v =>
    have hsource : i.text.toList ++ '\n' :: rest =
        i.opcode.mnemonic.toList ++ ' ' :: (v.typedText.toList ++ '\n' :: rest) := by
      simp [Instruction.text, hvalue]
    have hvalued := i.withValue?_opcode v hvalue
    have hfinite := hi v hvalue
    obtain ⟨ts, pos', hts, hlexed⟩ := lexed_value interactive v hfinite ('\n' :: rest)
      ((pos.after i.opcode.mnemonic.toList).next ' ')
    rw [hsource, lexed_word interactive _ _ pos i.opcode.isWord_mnemonic (by simp),
      TokenKind.ofWord_mnemonic, lexed_blank interactive ' ' _ _ (by decide), hlexed, hnewline]
    refine ⟨_ :: ts, .valued i.opcode v.kind v.text, _, _,
      .valued _ i.opcode ts v.kind v.text rfl hvalued.1 hts, ?_, ?_, rfl⟩
    · simp [Statement.instruction?, Operand.ofLiteral_text v hfinite, hvalued.2]
    · rfl

/-- **The tokens of a listing** derive the statements of the program, up to the end of the file. -/
theorem lexed_listing (p : Program) (hp : ∀ v ∈ p.operands, v.isFinite = true) (pos : Position) :
    ∃ ts ss stop, Grammar.Lines ts ss ∧ ss.map Statement.instruction? = p.map some ∧
      stop.isEnd = true ∧ lexed false p.listing.toList pos = (ts ++ [stop], []) := by
  rw [Program.listing, String.toList_ofList]
  -- line by line; each line leaves off at some position, so the position is any one
  induction p generalizing pos with
  | nil =>
    refine ⟨[], [], _, .done, rfl, ?_, lexed_of_dropWhile_eq_nil false [] pos rfl⟩
    rfl
  | cons i p ih =>
    have hhead : ∀ v ∈ i.value?, v.isFinite = true := by
      intro v hv
      exact hp v (by simp [Program.operands, List.mem_filterMap, Option.mem_def.1 hv])
    have htail : ∀ v ∈ Program.operands p, v.isFinite = true := by
      intro v hv
      obtain ⟨j, hj, hv⟩ := List.mem_filterMap.1 hv
      exact hp v (List.mem_filterMap.2 ⟨j, List.mem_cons_of_mem i hj, hv⟩)
    have hsource : (i :: p).flatMap (fun i => i.text.toList ++ ['\n']) =
        i.text.toList ++ '\n' :: p.flatMap fun i => i.text.toList ++ ['\n'] := by
      simp
    obtain ⟨ts, s, newline, pos', hs, hi, hnewline, hlexed⟩ := lexed_instruction false i hhead
      (p.flatMap fun i => i.text.toList ++ ['\n']) pos
    obtain ⟨us, ss, stop, hlines, hmap, hstop, hrest⟩ := ih htail pos'
    refine ⟨ts ++ ([newline] ++ us), s :: ss, stop, ?_, by simp [hi, hmap], hstop, ?_⟩
    · exact .line ts s [newline] us ss hs (by simp) (by simpa using hnewline) hlines
    · rw [hsource, hlexed, hrest]
      simp

end Token

namespace Program

/-! ## The round trip -/

/-- A text without faults assembles to the instructions of its lines. -/
theorem assemble_of_allFaults_eq_nil (text : String) (h : allFaults false text = []) :
    assemble text = .ok (linesRead (tokensOf false text)).1 := by
  rw [assemble, read_eq_outcome, h, Report.outcome_nil]
  rfl

/-- **Listing round trip.** The listing of a program that holds an `exit`, and whose operands are
within the bounds of their kinds, assembles to the program itself. -/
theorem assemble_listing (p : Program) (hexit : p.hasExit = true)
    (hoperands : ∀ v ∈ p.operands, ∃ w, v.checked = .ok w) : assemble p.listing = .ok p := by
  have hfinite : ∀ v ∈ p.operands, v.isFinite = true := by
    intro v hv
    obtain ⟨w, hw⟩ := hoperands v hv
    exact v.isFinite_of_checked w hw
  obtain ⟨ts, ss, stop, hlines, hmap, hstop, hlexed⟩ := Token.lexed_listing p hfinite .start
  have hread : linesRead (tokensOf false p.listing) = (p, []) := by
    rw [tokensOf, hlexed]
    exact linesRead_complete ts ss hlines p hmap [stop] (by simpa using hstop)
  have hfaults : allFaults false p.listing = [] := by
    rw [allFaults, hlexed, List.nil_append, parseFaults_eq_nil_iff, hread]
    exact ⟨rfl, hexit⟩
  rw [assemble_of_allFaults_eq_nil _ hfaults, hread]

/-- A negative zero, the least positive double, the greatest numbers of either precision and the
least 32-bit integer come back as they are. -/
theorem assemble_listing_extremes :
    ∃ p : Program,
      p = [.push (.float (Binary.zero true)), .push (.double (.number false 1 (by decide))),
        .assert (.float (Binary.largest false)), .push (.double (Binary.largest true)),
        .push (.int32 (-2147483648)), .dump, .exit] ∧
      p.hasExit = true ∧ (∀ v ∈ p.operands, ∃ w, v.checked = .ok w) ∧
      assemble p.listing = .ok p := by
  have hchecked : ∀ p : Program, (∀ v ∈ p.operands, v.isFinite = true) →
      ∀ v ∈ p.operands, ∃ w, v.checked = .ok w := fun p h v hv =>
    ⟨v, v.checked_of_isFinite (h v hv)⟩
  exact ⟨_, rfl, rfl, hchecked _ (by decide), assemble_listing _ rfl (hchecked _ (by decide))⟩

end Program

end NumStack
