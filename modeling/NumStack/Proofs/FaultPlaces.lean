import NumStack.Proofs.LineIndependence
import NumStack.Proofs.LiteralDenotation
import NumStack.Proofs.SessionLines

/-!
# Where faults point

A fault points at what it is about. Every token stands in the source text at its position, and each
fault but a missing `exit` is found at a token. So the line of a fault is a line of the text, its
column is on that line or right behind it, and what stands there is what the message shows.
-/

namespace NumStack

namespace Position

/-! ## Lines and columns of a text -/

theorem takeWhile_line_append (line rest : List Char) (hline : '\n' ∉ line) :
    (line ++ rest).takeWhile (· != '\n') = line ++ rest.takeWhile (· != '\n') := by
  apply List.takeWhile_append_of_pos
  intro c hc
  rw [bne_iff_ne]
  rintro rfl
  exact hline hc

/-- Text without a newline moves a position along its line. -/
theorem after_of_newline_not_mem (p : Position) (cs : List Char) (h : '\n' ∉ cs) :
    p.after cs = ⟨p.line, p.column + cs.length⟩ := by
  induction cs generalizing p with
  | nil => rfl
  | cons c cs ih =>
    rw [List.mem_cons, not_or] at h
    rw [after_cons, ih _ h.2, next, if_neg (Ne.symm h.1), List.length_cons, Nat.add_assoc,
      Nat.add_comm 1]

theorem behind_line (line : List Char) (hline : '\n' ∉ line) :
    behind line = ⟨1, 1 + line.length⟩ := by
  rw [← List.nil_append line, ← after_behind, after_of_newline_not_mem _ line hline]
  rfl

/-- A line in front of a text moves the position behind the text one line down. -/
theorem behind_line_append (line before : List Char) (hline : '\n' ∉ line) :
    behind (line ++ '\n' :: before) = (behind before).down 1 := by
  calc behind (line ++ '\n' :: before)
      = ((behind line).next '\n').after before := by rw [← after_behind, after_cons]
    _ = ((behind []).down 1).after before := by rw [behind_line line hline]; rfl
    _ = (behind before).down 1 := by rw [after_down, after_behind, List.nil_append]

/-- The first line of a text is what stands in front of its first newline. -/
theorem getElem?_zero_splitOn (cs : List Char) :
    (cs.splitOn '\n')[0]? = some (cs.takeWhile (· != '\n')) := by
  by_cases h : '\n' ∈ cs
  · obtain ⟨line, rest, rfl, hline⟩ := List.eq_append_cons_of_mem h
    rw [List.splitOn_append_cons_self_of_not_mem hline, takeWhile_line_append _ _ hline]
    simp
  · have htake := takeWhile_line_append cs [] h
    rw [List.append_nil, List.takeWhile_nil, List.append_nil] at htake
    rw [List.splitOn_eq_singleton h, htake]
    rfl

/-- **The line of a position.** The position between two parts of a text is on the line that its
number says, and its column counts what stands in front of it there. -/
theorem exists_line_behind (before rest : List Char) :
    ∃ front, ((before ++ rest).splitOn '\n')[(behind before).line - 1]? =
        some (front ++ rest.takeWhile (· != '\n')) ∧
      (behind before).column = 1 + front.length := by
  induction before using lines_induction with
  | last line hline =>
    refine ⟨line, ?_, by rw [behind_line line hline]⟩
    rw [behind_line line hline, ← takeWhile_line_append _ _ hline]
    exact getElem?_zero_splitOn _
  | more line before hline ih =>
    obtain ⟨front, hget, hcolumn⟩ := ih
    have hindex : ((behind before).down 1).line - 1 = (behind before).line - 1 + 1 := by
      show 1 + before.count '\n' + 1 - 1 = 1 + before.count '\n' - 1 + 1
      omega
    refine ⟨front, ?_, ?_⟩
    · rw [behind_line_append line before hline, List.append_assoc, List.cons_append,
        List.splitOn_append_cons_self_of_not_mem hline, hindex, List.getElem?_cons_succ, hget]
    · rw [behind_line_append line before hline]
      exact hcolumn

end Position

/-! ## Tokens in their text -/

/-- A word stands ahead. -/
def WordAhead (word : String) (ahead : List Char) : Prop := word ≠ "" ∧ word.toList <+: ahead

namespace Token

/-- The token is what stands ahead on a line: its text, the end of the line, or on the last line the
end of the source. -/
def IsAhead (t : Token) (ahead : List Char) (last : Prop) : Prop :=
  (t.kind = .newline ∧ ahead = [] ∧ ¬ last) ∨ (t.kind = .endOfFile ∧ ahead = [] ∧ last) ∨
    (t.kind ≠ .newline ∧ t.kind ≠ .endOfFile ∧ WordAhead t.text ahead)

/-- The line and the column of the token are in the text, and there the token stands. -/
structure StandsIn (t : Token) (cs : List Char) : Prop where
  line_pos : 1 ≤ t.position.line
  line_le : t.position.line ≤ 1 + cs.count '\n'
  column_pos : 1 ≤ t.position.column
  /-- The line reaches up to the column, and the token stands ahead. -/
  ahead : ∃ line, (cs.splitOn '\n')[t.position.line - 1]? = some line ∧
    t.position.column ≤ 1 + line.length ∧
    t.IsAhead (line.drop (t.position.column - 1)) (t.position.line = 1 + cs.count '\n')

/-- A token stands in the text that has it between what is in front and what is behind. -/
theorem standsIn_of_append (t : Token) (before rest : List Char)
    (hposition : t.position = .behind before)
    (ht : (t.kind = .newline ∧ t.text = "\n") ∨ (t.kind = .endOfFile ∧ t.text = "" ∧ rest = []) ∨
      (t.kind ≠ .newline ∧ t.kind ≠ .endOfFile ∧ t.text ≠ "" ∧ '\n' ∉ t.text.toList)) :
    t.StandsIn (before ++ (t.text.toList ++ rest)) := by
  have hline : t.position.line = 1 + before.count '\n' := by rw [hposition, Position.behind]
  obtain ⟨front, hget, hcolumn⟩ := Position.exists_line_behind before (t.text.toList ++ rest)
  rw [← hposition] at hget hcolumn
  refine ⟨by omega, ?_, by omega, _, hget, ?_, ?_⟩
  · rw [hline, List.count_append]
    omega
  · rw [hcolumn, List.length_append]
    omega
  · rw [hcolumn, Nat.add_sub_cancel_left, List.drop_left, hline, List.count_append]
    obtain ⟨hkind, htext⟩ | ⟨hkind, htext, rfl⟩ | ⟨hnewline, hend, htext, hmem⟩ := ht
    · refine .inl ⟨hkind, by simp [htext], ?_⟩
      simp [htext]
    · exact .inr (.inl ⟨hkind, by simp [htext], by simp [htext]⟩)
    · refine .inr (.inr ⟨hnewline, hend, htext, ?_⟩)
      rw [Position.takeWhile_line_append _ _ hmem]
      exact List.prefix_append _ _

/-- The end of a file is the last token, and no text is left behind it. -/
theorem Layout.of_endOfFile {interactive : Bool} {before source rest : List Char}
    {pre post : List Span} {s : Span} (h : Layout interactive before source (pre ++ s :: post) rest)
    (hkind : s.token.kind = .endOfFile) : s.token.text = "" ∧ post = [] ∧ rest = [] := by
  obtain ⟨init, last, hspans, hinit, hlast⟩ := h.ends
  obtain rfl | ⟨more, u, rfl⟩ := List.eq_nil_or_concat' post
  · obtain ⟨-, hs⟩ := List.append_inj' hspans rfl
    cases hs
    obtain ⟨-, htext, hrest⟩ | ⟨-, hinput, -⟩ := hlast
    · exact ⟨htext, rfl, hrest⟩
    · rw [hkind] at hinput
      cases hinput
  · -- a span in front of the last one is no end marker
    rw [← List.cons_append, ← List.append_assoc] at hspans
    obtain ⟨rfl, -⟩ := List.append_inj' hspans rfl
    have hno := hinit s (by simp)
    simp [isEnd, hkind] at hno

/-- Every token but the end of a file has a text. -/
theorem text_ne_empty_of_mem_lexed (interactive : Bool) (cs : List Char) (pos : Position) :
    ∀ t ∈ (lexed interactive cs pos).1, t.kind ≠ .endOfFile → t.text ≠ "" := by
  intro t ht hkind
  obtain ⟨-, ⟨hend, -⟩ | ⟨c, tail, -, -, htext⟩⟩ := exists_cut_of_mem_lexed interactive cs pos t ht
  · exact absurd hend hkind
  · rw [htext]
    intro hempty
    exact Lexeme.cut_text_ne_nil interactive c tail (String.ofList_injective hempty)

/-- **Tokens stand in their text.** -/
theorem standsIn_of_mem_lexed (interactive : Bool) (cs : List Char) :
    ∀ t ∈ (lexed interactive cs .start).1, t.StandsIn cs := by
  intro t ht
  have htext := text_ne_empty_of_mem_lexed interactive cs .start t ht
  obtain ⟨spans, rest, htokens, hlayout⟩ := exists_layout interactive cs .start [] rfl
  rw [← htokens] at ht
  obtain ⟨s, hs, rfl⟩ := List.mem_map.1 ht
  obtain ⟨pre, post, rfl⟩ := List.append_of_mem hs
  obtain ⟨-, hposition⟩ := hlayout.placed pre s post rfl
  have hsource : cs = (Span.source pre ++ s.gap) ++
      (s.token.text.toList ++ (Span.source post ++ rest)) := by
    rw [hlayout.source_eq]
    simp [Span.source, Span.chars]
  rw [List.nil_append] at hposition
  rw [hsource]
  refine standsIn_of_append s.token _ _ hposition ?_
  by_cases hend : s.token.kind = .endOfFile
  · obtain ⟨hempty, rfl, rfl⟩ := hlayout.of_endOfFile hend
    exact .inr (.inl ⟨hend, hempty, rfl⟩)
  · obtain hnewline | ⟨hnewline, -, hmem⟩ := hlayout.kinds s hs
    · exact .inl hnewline
    · exact .inr (.inr ⟨hnewline, hend, htext hend, hmem⟩)

/-! ## Lexical faults and their tokens -/

/-- The fault that is met in cutting off the token: a character that starts none, or the end of a
session without its terminator. -/
def lexicalFault? (interactive : Bool) (t : Token) : Option SourceFault :=
  match t.kind with
  | .invalid => t.text.toList.head?.map (.unexpectedCharacter t.position)
  | .endOfFile => if interactive then some (.missingTerminator t.position.line) else none
  | _ => none

/-- A lexical fault is met at an invalid token, whose first character it shows, or at the end of the
file. -/
theorem lexicalFault?_eq_some {interactive : Bool} {t : Token} {fault : SourceFault}
    (h : t.lexicalFault? interactive = some fault) :
    (t.kind = .invalid ∧ ∃ c, t.text.toList.head? = some c ∧
      fault = .unexpectedCharacter t.position c) ∨
    (t.kind = .endOfFile ∧ interactive = true ∧ fault = .missingTerminator t.position.line) := by
  unfold lexicalFault? at h
  split at h
  · rename_i hkind
    obtain ⟨c, hc, hfault⟩ := Option.map_eq_some_iff.1 h
    exact .inl ⟨hkind, c, hc, hfault.symm⟩
  · rename_i hkind
    split at h
    · rename_i hinteractive
      exact .inr ⟨hkind, hinteractive, (Option.some.inj h).symm⟩
    · cases h
  · cases h

/-- The fault of a lexeme's token. -/
theorem lexicalFault?_cut (interactive : Bool) (c : Char) (tail : List Char) (pos : Position) :
    lexicalFault? interactive ⟨(Lexeme.cut interactive c tail).kind,
        String.ofList (Lexeme.cut interactive c tail).text, pos⟩ =
      if (Lexeme.cut interactive c tail).kind = .invalid then some (.unexpectedCharacter pos c)
      else none := by
  have hhead : (Lexeme.cut interactive c tail).text.head? = some c := by
    have happend := Lexeme.cut_append interactive c tail
    have hne := Lexeme.cut_text_ne_nil interactive c tail
    obtain ⟨d, more, htext⟩ := List.exists_cons_of_ne_nil hne
    rw [htext, List.cons_append, List.cons.injEq] at happend
    rw [htext, happend.1]
    rfl
  have hend : (Lexeme.cut interactive c tail).kind ≠ .endOfFile := by
    obtain ⟨hkind, -⟩ | ⟨hkind, -⟩ | htoken := Lexeme.cut_cases interactive c tail
    · simp [hkind]
    · simp [hkind]
    · exact htoken.kind_ne .endOfFile rfl (by decide)
  unfold lexicalFault?
  split
  · rename_i hkind
    rw [if_pos hkind, String.toList_ofList, hhead]
    rfl
  · rename_i hkind
    exact absurd hkind hend
  · rename_i hkind _
    rw [if_neg hkind]

/-- **The lexical faults of a text are those of its tokens**, in their order. -/
theorem lexed_faults (interactive : Bool) (cs : List Char) (pos : Position) :
    (lexed interactive cs pos).2 =
      (lexed interactive cs pos).1.filterMap (lexicalFault? interactive) := by
  fun_induction lexed interactive cs pos with
  | case1 cs pos here hnil => cases interactive <;> rfl
  | case2 cs pos here c tail hcons lexeme hend => rfl
  | case3 cs pos here c tail hcons lexeme hend after ih =>
    have hfault := lexicalFault?_cut interactive c tail here
    dsimp only
    rw [show after.2 = _ from ih]
    by_cases hcomment : lexeme.kind = .comment
    · rw [if_pos hcomment, if_neg (by rw [hcomment]; decide)]
    · rw [if_neg hcomment, List.filterMap_cons, hfault]
      split <;> rfl

end Token

/-! ## What a fault shows -/

/-- The literal that a fault in building an operand shows. -/
def OperandFault.literal? : OperandFault → Option String
  | invalidLiteral _ text | overflow _ text | underflow _ text => some text
  | divisionByZero => none

theorem Operand.literal?_of_ofLiteral_error (kind : Kind) (text : String) (cause : OperandFault)
    (h : ofLiteral kind text = .error cause) : cause.literal? = some text := by
  have hreading := ofLiteral_reading kind text
  rw [h] at hreading
  cases hreading <;> rfl

namespace SourceFault

/-- What was found stands ahead: a word, or the end of the line, or on the last line the end of the
source. -/
def FoundAhead (found : String) (ahead : List Char) (last : Prop) : Prop :=
  WordAhead found ahead ∨ (found = "end of line" ∧ ahead = [] ∧ ¬ last) ∨
    (found = "end of file" ∧ ahead = [] ∧ last)

/-- What a fault shows stands ahead. -/
def Describes (ahead : List Char) (last : Prop) : SourceFault → Prop
  | unexpectedCharacter _ found => ahead.head? = some found
  | unknownInstruction _ word => WordAhead word ahead
  | expectedKind _ found | expectedNumber _ found | unexpectedToken _ _ found =>
    FoundAhead found ahead last
  | invalidOperand _ cause => ∃ literal, cause.literal? = some literal ∧ WordAhead literal ahead
  | missingExit | missingTerminator _ => True

/-- The fault points into the text, at what it shows. -/
structure PointsInto (fault : SourceFault) (cs : List Char) : Prop where
  /-- The line of the fault is a line of the text. -/
  line : ∀ n, fault.line? = some n → 1 ≤ n ∧ n ≤ 1 + cs.count '\n'
  /-- The line reaches up to the column, and what the fault shows stands there. -/
  position : ∀ p, fault.position? = some p → ∃ line, (cs.splitOn '\n')[p.line - 1]? = some line ∧
    1 ≤ p.column ∧ p.column ≤ 1 + line.length ∧
    fault.Describes (line.drop (p.column - 1)) (p.line = 1 + cs.count '\n')
  /-- A terminator is missing on the last line. -/
  terminator : ∀ n, fault = missingTerminator n → n = 1 + cs.count '\n'

/-- A fault at the position of a token points into the text if the token stands there and is what
the fault shows. -/
theorem PointsInto.of_token {t : Token} {cs : List Char} {fault : SourceFault}
    (ht : t.StandsIn cs) (hposition : fault.position? = some t.position)
    (h : ∀ ahead last, t.IsAhead ahead last → fault.Describes ahead last) :
    fault.PointsInto cs where
  line := by
    intro n hn
    have hline : fault.line? = some t.position.line := by
      cases fault <;> simp_all [line?, position?]
    rw [hline] at hn
    cases hn
    exact ⟨ht.line_pos, ht.line_le⟩
  position := by
    intro p hp
    rw [hposition] at hp
    cases hp
    obtain ⟨line, hget, hle, hahead⟩ := ht.ahead
    exact ⟨line, hget, ht.column_pos, hle, h _ _ hahead⟩
  terminator := by
    rintro n rfl
    cases hposition

end SourceFault

namespace Token

variable {t : Token} {ahead : List Char} {last : Prop}

/-- A token with a text of its own stands ahead with that text. -/
theorem IsAhead.word (h : t.IsAhead ahead last) (hnewline : t.kind ≠ .newline)
    (hend : t.kind ≠ .endOfFile) : WordAhead t.text ahead := by
  obtain ⟨hkind, -⟩ | ⟨hkind, -⟩ | ⟨-, -, htext⟩ := h
  · exact absurd hkind hnewline
  · exact absurd hkind hend
  · exact htext

/-- A token that stands ahead is found as a message shows it. -/
theorem IsAhead.found (h : t.IsAhead ahead last) :
    SourceFault.FoundAhead t.describe ahead last := by
  unfold describe
  split
  · rename_i hkind
    obtain ⟨-, hline⟩ | ⟨hend, -⟩ | ⟨hnewline, -⟩ := h
    · exact .inr (.inl ⟨rfl, hline⟩)
    · rw [hkind] at hend
      cases hend
    · exact absurd hkind hnewline
  · rename_i hkind
    obtain ⟨hnewline, -⟩ | ⟨-, hfile⟩ | ⟨-, hend, -⟩ := h
    · rw [hkind] at hnewline
      cases hnewline
    · exact .inr (.inr ⟨rfl, hfile⟩)
    · exact absurd hkind hend
  · rename_i hnewline hend
    exact .inl (h.word hnewline hend)

/-- A fault found at a token describes what stands ahead there. -/
theorem HasFault.pointsInto {cs : List Char} {fault : SourceFault} (h : t.HasFault fault)
    (ht : t.StandsIn cs) : fault.PointsInto cs := by
  cases h with
  | unknownInstruction h =>
    refine .of_token ht rfl fun ahead last hahead => hahead.word ?_ ?_
    all_goals rcases h with h | ⟨kind, h⟩ <;> simp [h]
  | expectedKind => exact .of_token ht rfl fun ahead last hahead => hahead.found
  | expectedNumber => exact .of_token ht rfl fun ahead last hahead => hahead.found
  | unexpectedToken expected => exact .of_token ht rfl fun ahead last hahead => hahead.found
  | invalidOperand kind cause hn h =>
    refine .of_token ht rfl fun ahead last hahead =>
      ⟨t.text, Operand.literal?_of_ofLiteral_error kind _ cause h, hahead.word ?_ ?_⟩
    all_goals
      intro hkind
      simp [isNumber, hkind] at hn

/-- A lexical fault of a token points at it. -/
theorem pointsInto_of_lexicalFault? {interactive : Bool} {cs : List Char} {fault : SourceFault}
    (h : t.lexicalFault? interactive = some fault) (ht : t.StandsIn cs) : fault.PointsInto cs := by
  obtain ⟨hkind, c, hc, rfl⟩ | ⟨hkind, -, rfl⟩ := lexicalFault?_eq_some h
  · refine .of_token ht rfl fun ahead last hahead => ?_
    obtain ⟨-, hword⟩ := hahead.word (by simp [hkind]) (by simp [hkind])
    obtain ⟨more, rfl⟩ := hword
    show (t.text.toList ++ more).head? = some c
    rw [List.head?_append, hc]
    rfl
  · obtain ⟨line, -, -, hahead⟩ := ht.ahead
    have hlast : t.position.line = 1 + cs.count '\n' := by
      obtain ⟨hnewline, -⟩ | ⟨-, -, hlast⟩ | ⟨-, hend, -⟩ := hahead
      · rw [hkind] at hnewline
        cases hnewline
      · exact hlast
      · exact absurd hkind hend
    refine ⟨?_, by rintro p ⟨⟩, ?_⟩
    · rintro n ⟨⟩
      exact ⟨ht.line_pos, ht.line_le⟩
    · rintro n ⟨⟩
      exact hlast

end Token

/-! ## Every fault of a text -/

namespace Program

/-- What an assembly fails with are faults met on its way. -/
theorem mem_allFaults_of_assembleWith (options : Options) (text : String)
    (faults : List SourceFault) (h : assembleWith options text = .error faults) :
    ∀ fault ∈ faults, fault ∈ allFaults options.interactive text := by
  obtain ⟨policy, interactive⟩ := options
  intro fault hmem
  cases policy with
  | failFast =>
    rw [assembleWith_failFast] at h
    split at h
    · cases h
    · rename_i first rest hall
      cases h
      rw [hall, List.mem_singleton.1 hmem]
      exact List.mem_cons_self
  | collect =>
    rw [assembleWith_collect] at h
    split at h
    · cases h
    · rename_i first rest hall
      cases h
      rw [hall]
      exact List.mem_mergeSort.1 hmem

/-- **Faults point at what they show.** Whatever the policy, in a file as in a session, every fault
with which assembly fails is on a line of the text, or is a missing `exit`. A fault with a column is
on its line or right behind it, and what it shows stands there: the unexpected character, the
unknown word, the refused literal, or what was found in place of something else, be it the end of
the line or of the source. A missing terminator is reported on the last line. -/
theorem assembleWith_faults_point (options : Options) (text : String) (faults : List SourceFault)
    (h : assembleWith options text = .error faults) :
    ∀ fault ∈ faults, fault.PointsInto text.toList := by
  intro fault hmem
  have htokens := Token.standsIn_of_mem_lexed options.interactive text.toList
  have hall := mem_allFaults_of_assembleWith options text faults h fault hmem
  rw [allFaults, parseFaults, Token.lexed_faults] at hall
  rcases List.mem_append.1 hall with hlexical | hparse
  · obtain ⟨t, ht, hfault⟩ := List.mem_filterMap.1 hlexical
    exact Token.pointsInto_of_lexicalFault? hfault (htokens t ht)
  rcases List.mem_append.1 hparse with hline | hexit
  · obtain ⟨t, ht, hfault⟩ := exists_token_of_mem_linesRead _
      (Token.lexed_stopped options.interactive text.toList) fault hline
    exact hfault.pointsInto (htokens t ht)
  · split at hexit
    · cases hexit
    · rw [List.mem_singleton.1 hexit]
      exact ⟨by rintro n ⟨⟩, by rintro p ⟨⟩, by rintro n ⟨⟩⟩

/-- A fault of each kind that shows something, in a file whose last line ends too early. -/
theorem assembleWith_faults_point_file :
    let text := "?!\nfoo 1\npush\npush int8 ; no\npush int8(300)\npush int8(1"
    let faults := [.unexpectedCharacter ⟨1, 1⟩ '?', .unknownInstruction ⟨2, 1⟩ "foo",
      .expectedKind ⟨3, 5⟩ "end of line", .expectedNumber ⟨4, 15⟩ "end of line",
      .invalidOperand ⟨5, 11⟩ (.overflow .int8 "300"),
      .unexpectedToken ⟨6, 12⟩ "')'" "end of file", .missingExit]
    assembleWith ⟨.collect, false⟩ text = .error faults ∧
      ∀ fault ∈ faults, fault.PointsInto text.toList := by
  intro text faults
  have hall : allFaults false text = faults := by decide +kernel
  have h : assembleWith ⟨.collect, false⟩ text = .error faults := by
    rw [assembleWith_collect, hall]
    exact congrArg Except.error (List.mergeSort_of_pairwise (by decide))
  exact ⟨h, assembleWith_faults_point _ text faults h⟩

end Program

end NumStack
