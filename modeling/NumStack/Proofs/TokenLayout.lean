import Mathlib.Data.List.TakeWhile
import NumStack.Proofs.Outcome

/-!
# Where tokens lie

Cutting a source text into tokens loses nothing. The text is made up of the tokens, in order, with
gaps between them, and only blanks and comments stand in the gaps. So the position of a token is
told by the text in front of it: the line by the number of newlines, the column by the number of
characters since the last of them. Every newline up to the end marker is a token of its own.
-/

namespace NumStack

namespace Position

/-! ## Positions told by the text in front -/

/-- The position behind a text that starts the source: its newlines make up the line, and the
characters behind the last of them the column. -/
def behind (before : List Char) : Position :=
  ⟨1 + before.count '\n', 1 + (before.reverse.takeWhile (· != '\n')).length⟩

/-- The position behind one more character. -/
theorem next_behind (before : List Char) (c : Char) :
    (behind before).next c = behind (before ++ [c]) := by
  by_cases hc : c = '\n'
  · subst hc
    simp [behind, next, Nat.add_assoc]
  · have hcount : [c].count '\n' = 0 := by simp [hc]
    have htake : (before ++ [c]).reverse.takeWhile (· != '\n') =
        c :: before.reverse.takeWhile (· != '\n') := by
      simp [hc]
    rw [next, if_neg hc, behind, behind, htake, List.count_append, hcount]
    simp [Nat.add_assoc]

/-- The position behind more text. -/
theorem after_behind (before cs : List Char) :
    (behind before).after cs = behind (before ++ cs) := by
  induction cs generalizing before with
  | nil => rw [after_nil, List.append_nil]
  | cons c cs ih => rw [after_cons, next_behind, ih, List.append_assoc, List.singleton_append]

end Position

/-! ## What a lexeme can be -/

/-- Whether tokens of a kind stand on a line: neither what ends a line or the source, nor a
comment. -/
def TokenKind.onLine : TokenKind → Bool
  | newline | comment | endOfFile | endOfInput => false
  | _ => true

namespace Lexeme

theorem newline_not_mem_takeWhile (p : Char → Bool) (hp : p '\n' = false) (cs : List Char) :
    '\n' ∉ cs.takeWhile p := by
  intro hmem
  rw [List.mem_takeWhile_imp hmem] at hp
  cases hp

/-- A numeral stands on a line and holds no newline. -/
theorem numeral_onLine (sign cs : List Char) (hsign : '\n' ∉ sign) :
    (numeral sign cs).kind.onLine = true ∧ '\n' ∉ (numeral sign cs).text := by
  have hdigits := newline_not_mem_takeWhile Char.isDigit rfl
  unfold numeral
  split
  · split
    · refine ⟨rfl, ?_⟩
      simp only [List.mem_append, List.mem_cons, not_or]
      exact ⟨⟨hsign, hdigits cs⟩, by decide, hdigits _⟩
    · refine ⟨rfl, ?_⟩
      simp only [List.mem_append, not_or]
      exact ⟨hsign, hdigits cs⟩
  · refine ⟨rfl, ?_⟩
    simp only [List.mem_append, not_or]
    exact ⟨hsign, hdigits cs⟩

theorem ofWord_onLine (word : String) : (TokenKind.ofWord word).onLine = true := by
  unfold TokenKind.ofWord
  split
  · rfl
  · split <;> rfl

/-- Behind the rest of a line comes a newline, or nothing. -/
theorem toLineEnd_rest (kind : TokenKind) (cs : List Char) :
    ∀ c ∈ (toLineEnd kind cs).rest.head?, c = '\n' := by
  intro c hc
  have hstop := List.head?_dropWhile_not (· != '\n') cs
  rw [show cs.dropWhile (· != '\n') = (toLineEnd kind cs).rest from rfl,
    Option.mem_def.1 hc] at hstop
  simpa using hstop

/-- The lexeme is a newline, or something on a line that holds no newline. -/
def IsToken (l : Lexeme) : Prop :=
  (l.kind = .newline ∧ l.text = ['\n']) ∨ (l.kind.onLine = true ∧ '\n' ∉ l.text)

/-- Neither comments nor end markers are such lexemes. -/
theorem IsToken.kind_ne {l : Lexeme} (h : l.IsToken) (other : TokenKind)
    (hother : other.onLine = false) (hnewline : other ≠ .newline) : l.kind ≠ other := by
  rintro rfl
  obtain ⟨hkind, -⟩ | ⟨hkind, -⟩ := h
  · exact hnewline hkind
  · rw [hkind] at hother
    cases hother

theorem IsToken.isEnd_eq {l : Lexeme} (h : l.IsToken) (text : String) (pos : Position) :
    (Token.mk l.kind text pos).isEnd = false := by
  have hfile := h.kind_ne .endOfFile rfl (by decide)
  have hinput := h.kind_ne .endOfInput rfl (by decide)
  simp [Token.isEnd, hfile, hinput]

/-- **What a lexeme can be.** It is the end of an interactive session, a comment up to the end of
its line, a newline, or something on a line that holds no newline. -/
theorem cut_cases (interactive : Bool) (c : Char) (cs : List Char) :
    ((cut interactive c cs).kind = .endOfInput ∧ interactive = true ∧
      (cut interactive c cs).text = [';', ';']) ∨
    ((cut interactive c cs).kind = .comment ∧ ∃ body, (cut interactive c cs).text = ';' :: body ∧
      '\n' ∉ body ∧ (interactive = true → body.head? ≠ some ';') ∧
      ∀ d ∈ (cut interactive c cs).rest.head?, d = '\n') ∨
    (cut interactive c cs).IsToken := by
  generalize hl : cut interactive c cs = l
  unfold cut at hl
  split at hl
  · rename_i hc
    split at hl
    · rename_i hend
      subst hl
      exact .inl ⟨rfl, (Bool.and_eq_true_iff.1 hend).1, rfl⟩
    · rename_i hend
      subst hl
      refine .inr (.inl ⟨rfl, cs.takeWhile (· != '\n'), ?_, ?_, ?_, ?_⟩)
      · simp [toLineEnd, run, hc]
      · exact newline_not_mem_takeWhile _ rfl cs
      · -- a second semicolon would have ended the session
        intro hinteractive hhead
        apply hend
        rw [hinteractive, Bool.true_and, decide_eq_true_iff]
        cases cs with
        | nil => cases hhead
        | cons d ds =>
          rw [List.takeWhile_cons] at hhead
          split at hhead
          · exact hhead
          · cases hhead
      · exact toLineEnd_rest .comment (c :: cs)
  · rename_i hsemicolon
    split at hl
    · rename_i hc
      subst hl
      exact .inr (.inr (.inl ⟨rfl, by rw [hc]⟩))
    · rename_i hnewline
      refine .inr (.inr (.inr ?_))
      have hsingle : '\n' ∉ [c] := by
        rw [List.mem_singleton]
        exact Ne.symm hnewline
      repeat' split at hl
      all_goals subst hl
      · exact ⟨rfl, hsingle⟩
      · exact ⟨rfl, hsingle⟩
      · exact numeral_onLine [c] cs hsingle
      · exact numeral_onLine [] (c :: cs) List.not_mem_nil
      · exact ⟨ofWord_onLine _, newline_not_mem_takeWhile _ rfl _⟩
      · exact ⟨rfl, newline_not_mem_takeWhile _ rfl _⟩

end Lexeme

namespace Token

/-! ## Gaps -/

/-- Text that stands in front of the text `rest` and gives no token: blanks, and comments, each of
which runs up to a newline or the end of the source. In an interactive session a comment does not
start with two semicolons. -/
inductive Gap (interactive : Bool) (rest : List Char) : List Char → Prop where
  | done : Gap interactive rest []
  | blank (c : Char) (cs : List Char) (hc : isBlank c = true) (h : Gap interactive rest cs) :
      Gap interactive rest (c :: cs)
  | comment (body cs : List Char) (hbody : '\n' ∉ body)
      (hopen : interactive = true → body.head? ≠ some ';')
      (hstop : ∀ c ∈ (cs ++ rest).head?, c = '\n') (h : Gap interactive rest cs) :
      Gap interactive rest (';' :: body ++ cs)

variable {interactive : Bool}

theorem Gap.of_blanks (rest : List Char) (cs : List Char) (h : ∀ c ∈ cs, isBlank c = true) :
    Gap interactive rest cs := by
  induction cs with
  | nil => exact .done
  | cons c cs ih =>
    exact .blank c cs (h c List.mem_cons_self) (ih fun d hd => h d (List.mem_cons_of_mem c hd))

/-- Two gaps in a row are one. -/
theorem Gap.append {rest gap gap' : List Char} (h : Gap interactive (gap' ++ rest) gap)
    (h' : Gap interactive rest gap') : Gap interactive rest (gap ++ gap') := by
  induction h with
  | done => exact h'
  | blank c cs hc _ ih => exact .blank c (cs ++ gap') hc ih
  | comment body cs hbody hopen hstop _ ih =>
    rw [List.append_assoc]
    exact .comment body (cs ++ gap') hbody hopen (by rwa [List.append_assoc]) ih

/-- There is no newline in a gap. -/
theorem Gap.newline_not_mem {rest gap : List Char} (h : Gap interactive rest gap) : '\n' ∉ gap := by
  induction h with
  | done => exact List.not_mem_nil
  | blank c cs hc _ ih =>
    have hne : c ≠ '\n' := by
      rintro rfl
      rw [isBlank_newline] at hc
      cases hc
    exact List.not_mem_cons_of_ne_of_not_mem (Ne.symm hne) ih
  | comment body cs hbody _ _ _ ih =>
    simp only [List.mem_append, List.mem_cons, not_or]
    exact ⟨⟨by decide, hbody⟩, ih⟩

/-! ## Layouts -/

/-- A token together with the gap in front of it. -/
structure Span where
  gap : List Char
  token : Token

/-- The source text of a token and the gap in front of it. -/
def Span.chars (s : Span) : List Char := s.gap ++ s.token.text.toList

/-- The source text of tokens and the gaps in front of them. -/
def Span.source (spans : List Span) : List Char := spans.flatMap Span.chars

/-- How tokens lie in the text `source`, which stands behind the text `before`. The text `rest` is
behind the last token. -/
structure Layout (interactive : Bool) (before source : List Char) (spans : List Span)
    (rest : List Char) : Prop where
  /-- The text is made up of the tokens and the gaps between them. -/
  source_eq : source = Span.source spans ++ rest
  /-- In front of each token is a gap, and its position is told by all the text in front of it. -/
  placed : ∀ pre s post, spans = pre ++ s :: post →
    Gap interactive (s.token.text.toList ++ (Span.source post ++ rest)) s.gap ∧
      s.token.position = .behind (before ++ Span.source pre ++ s.gap)
  /-- A newline token is a newline. The others hold none, and there are no comments. -/
  kinds : ∀ s ∈ spans, (s.token.kind = .newline ∧ s.token.text = "\n") ∨
    (s.token.kind ≠ .newline ∧ s.token.kind ≠ .comment ∧ '\n' ∉ s.token.text.toList)
  /-- The last token is the only end marker: the end of the file with no text behind it, or the
  two semicolons of an interactive session. -/
  ends : ∃ init last, spans = init ++ [last] ∧ (∀ s ∈ init, s.token.isEnd = false) ∧
    ((last.token.kind = .endOfFile ∧ last.token.text = "" ∧ rest = []) ∨
      (interactive = true ∧ last.token.kind = .endOfInput ∧ last.token.text = ";;"))

namespace Layout

variable {before source rest : List Char} {spans : List Span}

/-- An end marker alone. -/
theorem last (gap : List Char) (t : Token)
    (hgap : Gap interactive (t.text.toList ++ rest) gap)
    (hposition : t.position = .behind (before ++ gap))
    (hend : (t.kind = .endOfFile ∧ t.text = "" ∧ rest = []) ∨
      (interactive = true ∧ t.kind = .endOfInput ∧ t.text = ";;")) :
    Layout interactive before (gap ++ (t.text.toList ++ rest)) [⟨gap, t⟩] rest where
  source_eq := by simp [Span.source, Span.chars]
  placed := by
    intro pre s post hspans
    obtain ⟨rfl, hs⟩ | ⟨_, rfl, hnil⟩ := List.cons_eq_append_iff.1 hspans
    · cases hs
      simpa [Span.source] using And.intro hgap hposition
    · cases (List.append_eq_nil_iff.1 hnil.symm).2
  kinds := by
    intro s hs
    rw [List.mem_singleton.1 hs]
    obtain ⟨hkind, htext, -⟩ | ⟨-, hkind, htext⟩ := hend
    · exact .inr (by simp [hkind, htext])
    · exact .inr (by simp [hkind, htext])
  ends := ⟨[], _, rfl, fun s hs => absurd hs List.not_mem_nil, hend⟩

/-- A lexeme in front of tokens, with the gap before it. -/
theorem cons (gap : List Char) (l : Lexeme) (hl : l.IsToken)
    (hgap : Gap interactive (l.text ++ l.rest) gap)
    (h : Layout interactive (before ++ gap ++ l.text) l.rest spans rest) :
    Layout interactive before (gap ++ (l.text ++ l.rest))
      (⟨gap, l.kind, String.ofList l.text, .behind (before ++ gap)⟩ :: spans) rest where
  source_eq := by
    rw [h.source_eq]
    simp [Span.source, Span.chars]
  placed := by
    intro pre s post hspans
    obtain ⟨rfl, hs⟩ | ⟨pre, rfl, htail⟩ := List.cons_eq_append_iff.1 hspans
    · cases hs
      rw [← h.source_eq, String.toList_ofList]
      exact ⟨hgap, by simp [Span.source]⟩
    · obtain ⟨hgap', hposition⟩ := h.placed pre s post htail
      exact ⟨hgap', by simpa [Span.source, Span.chars] using hposition⟩
  kinds := by
    intro s hs
    rcases List.mem_cons.1 hs with rfl | hs
    · have hcomment := hl.kind_ne .comment rfl (by decide)
      obtain ⟨hkind, htext⟩ | ⟨hkind, htext⟩ := hl
      · exact .inl ⟨hkind, by rw [htext]⟩
      · refine .inr ⟨?_, hcomment, by rwa [String.toList_ofList]⟩
        intro (hnewline : l.kind = .newline)
        rw [hnewline] at hkind
        cases hkind
    · exact h.kinds s hs
  ends := by
    obtain ⟨init, last, rfl, hinit, hlast⟩ := h.ends
    refine ⟨_ :: init, last, rfl, ?_, hlast⟩
    intro s hs
    rcases List.mem_cons.1 hs with rfl | hs
    · exact hl.isEnd_eq _ _
    · exact hinit s hs

/-- A gap in front of tokens belongs to the gap of the first of them. -/
theorem skip (gap : List Char) (hgap : Gap interactive source gap)
    (h : Layout interactive (before ++ gap) source spans rest) :
    ∃ s post, spans = s :: post ∧
      Layout interactive before (gap ++ source) (⟨gap ++ s.gap, s.token⟩ :: post) rest := by
  obtain ⟨s, post, rfl⟩ : ∃ s post, spans = s :: post := by
    obtain ⟨init, last, rfl, -, -⟩ := h.ends
    cases init with
    | nil => exact ⟨last, [], rfl⟩
    | cons s init => exact ⟨s, init ++ [last], rfl⟩
  have hsource := h.source_eq
  refine ⟨s, post, rfl, ?_, ?_, ?_, ?_⟩
  · rw [hsource]
    simp [Span.source, Span.chars]
  · intro pre s' post' hspans
    obtain ⟨rfl, hs⟩ | ⟨pre, rfl, htail⟩ := List.cons_eq_append_iff.1 hspans
    · cases hs
      obtain ⟨hgap', hposition⟩ := h.placed [] s post rfl
      refine ⟨Gap.append ?_ hgap', by simpa [Span.source] using hposition⟩
      have hfirst : source = s.gap ++ (s.token.text.toList ++ (Span.source post ++ rest)) := by
        simpa [Span.source, Span.chars] using hsource
      rwa [← hfirst]
    · obtain ⟨hgap', hposition⟩ := h.placed (s :: pre) s' post' (by rw [htail, List.cons_append])
      exact ⟨hgap', by simpa [Span.source, Span.chars] using hposition⟩
  · intro s' hs'
    rcases List.mem_cons.1 hs' with rfl | hs'
    · exact h.kinds s List.mem_cons_self
    · exact h.kinds s' (List.mem_cons_of_mem s hs')
  · obtain ⟨init, last, hspans, hinit, hlast⟩ := h.ends
    cases init with
    | nil =>
      cases hspans
      exact ⟨[], _, rfl, hinit, hlast⟩
    | cons s init =>
      cases hspans
      refine ⟨_ :: init, last, rfl, ?_, hlast⟩
      intro s' hs'
      rcases List.mem_cons.1 hs' with rfl | hs'
      · exact hinit s List.mem_cons_self
      · exact hinit s' (List.mem_cons_of_mem s hs')

end Layout

/-- A character that is not in the first part of a text is in the rest. -/
theorem exists_of_append_eq (part rest front tail : List Char) (c : Char) (hc : c ∉ part)
    (h : part ++ rest = front ++ c :: tail) :
    ∃ front', front = part ++ front' ∧ rest = front' ++ c :: tail := by
  obtain ⟨front', hfront, hrest⟩ | ⟨excess, hpart, hexcess⟩ := List.append_eq_append_iff.1 h
  · exact ⟨front', hfront, hrest⟩
  · cases excess with
    | nil => exact ⟨[], by simpa using hpart.symm, by simpa using hexcess.symm⟩
    | cons d excess =>
      cases hexcess
      exact absurd (by simp [hpart]) hc

/-- **Every newline is a token.** A newline of the text up to the end marker is where a newline
token lies. -/
theorem Layout.newline_is_token {before source rest : List Char} {spans : List Span}
    (h : Layout interactive before source spans rest) (front tail : List Char)
    (hnewline : Span.source spans = front ++ '\n' :: tail) :
    ∃ pre s post, spans = pre ++ s :: post ∧ s.token.kind = .newline ∧ s.token.text = "\n" ∧
      front = Span.source pre ++ s.gap := by
  have hgaps : ∀ s ∈ spans, '\n' ∉ s.gap := by
    intro s hs
    obtain ⟨pre, post, hspans⟩ := List.append_of_mem hs
    exact (h.placed pre s post hspans).1.newline_not_mem
  have hkinds := h.kinds
  clear h
  -- the newline is not in the first gap, so it is the first token or lies behind it
  induction spans generalizing front with
  | nil => simp [Span.source] at hnewline
  | cons s spans ih =>
    rw [Span.source, List.flatMap_cons, Span.chars, List.append_assoc] at hnewline
    obtain ⟨front, rfl, hbehind⟩ :=
      exists_of_append_eq _ _ _ _ _ (hgaps s List.mem_cons_self) hnewline
    have hlater : ∀ front', front = s.token.text.toList ++ front' →
        Span.source spans = front' ++ '\n' :: tail →
        ∃ pre s' post, s :: spans = pre ++ s' :: post ∧ s'.token.kind = .newline ∧
          s'.token.text = "\n" ∧ s.gap ++ front = Span.source pre ++ s'.gap := by
      intro front' hfront hsource
      obtain ⟨pre, s', post, rfl, hkind, htext, rfl⟩ := ih front' hsource
        (fun s' hs' => hgaps s' (List.mem_cons_of_mem s hs'))
        (fun s' hs' => hkinds s' (List.mem_cons_of_mem s hs'))
      exact ⟨s :: pre, s', post, rfl, hkind, htext, by simp [Span.source, Span.chars, hfront]⟩
    obtain ⟨hkind, htext⟩ | ⟨-, -, htext⟩ := hkinds s List.mem_cons_self
    · cases front with
      | nil => exact ⟨[], s, spans, rfl, hkind, htext, by simp [Span.source]⟩
      | cons c front =>
        rw [htext] at hbehind hlater
        obtain ⟨rfl, hsource⟩ := List.cons.inj hbehind
        exact hlater front rfl hsource
    · obtain ⟨front', hfront, hsource⟩ := exists_of_append_eq _ _ _ _ _ htext hbehind
      exact hlater front' hfront hsource

/-! ## The layout of a source text -/

theorem gap_takeWhile (rest cs : List Char) : Gap interactive rest (cs.takeWhile isBlank) :=
  .of_blanks rest _ fun _ hc => List.mem_takeWhile_imp hc

/-- A text is the blanks in front, the first lexeme and the rest. -/
theorem blanks_append_cut (interactive : Bool) (cs : List Char) (c : Char) (tail : List Char)
    (h : cs.dropWhile isBlank = c :: tail) :
    cs.takeWhile isBlank ++ ((Lexeme.cut interactive c tail).text ++
      (Lexeme.cut interactive c tail).rest) = cs := by
  rw [Lexeme.cut_append, ← h, List.takeWhile_append_dropWhile]

/-- **Where a token comes from.** A token of a text is behind its start. It is the end of the file,
or a lexeme that was cut off and is no comment. -/
theorem exists_cut_of_mem_lexed (interactive : Bool) (cs : List Char) (pos : Position) :
    ∀ t ∈ (lexed interactive cs pos).1, (∃ passed, t.position = pos.after passed) ∧
      ((t.kind = .endOfFile ∧ t.text = "") ∨ ∃ c tail,
        t.kind = (Lexeme.cut interactive c tail).kind ∧ t.kind ≠ .comment ∧
        t.text = String.ofList (Lexeme.cut interactive c tail).text) := by
  fun_induction lexed interactive cs pos with
  | case1 cs pos here hnil =>
    intro t ht
    rw [List.mem_singleton.1 ht]
    exact ⟨⟨_, rfl⟩, .inl ⟨rfl, rfl⟩⟩
  | case2 cs pos here c tail hcons lexeme hend =>
    intro t ht
    rw [List.mem_singleton.1 ht]
    exact ⟨⟨_, rfl⟩, .inr ⟨c, tail, hend.symm, TokenKind.noConfusion, rfl⟩⟩
  | case3 cs pos here c tail hcons lexeme hend after ih =>
    have hrest : ∀ t ∈ after.1, (∃ passed, t.position = pos.after passed) ∧
        ((t.kind = .endOfFile ∧ t.text = "") ∨ ∃ c tail,
          t.kind = (Lexeme.cut interactive c tail).kind ∧ t.kind ≠ .comment ∧
          t.text = String.ofList (Lexeme.cut interactive c tail).text) := by
      intro t ht
      obtain ⟨⟨passed, hpassed⟩, horigin⟩ := ih t ht
      refine ⟨⟨cs.takeWhile isBlank ++ lexeme.text ++ passed, ?_⟩, horigin⟩
      rw [hpassed, Position.after_append, Position.after_append]
    dsimp only
    split
    · exact hrest
    · rename_i hcomment
      exact List.forall_mem_cons.2 ⟨⟨⟨_, rfl⟩, .inr ⟨c, tail, rfl, hcomment, rfl⟩⟩, hrest⟩

/-- **Scanning lays out the text**: the tokens of the text `cs` behind the text `before` lie in
it. -/
theorem exists_layout (interactive : Bool) (cs : List Char) (pos : Position) (before : List Char)
    (hpos : pos = .behind before) :
    ∃ spans rest, spans.map Span.token = (lexed interactive cs pos).1 ∧
      Layout interactive before cs spans rest := by
  -- lexeme by lexeme: each is put behind what has been cut before it
  fun_induction lexed interactive cs pos generalizing before with
  | case1 cs pos here hnil =>
    have hblank : cs.takeWhile isBlank = cs :=
      List.takeWhile_eq_self_iff.2 (List.dropWhile_eq_nil_iff.1 hnil)
    have hgap : Gap interactive [] cs := hblank ▸ gap_takeWhile [] cs
    have hhere : here = .behind (before ++ cs) := by
      rw [show here = pos.after (cs.takeWhile isBlank) from rfl, hblank, hpos,
        Position.after_behind]
    have hlayout := Layout.last cs ⟨.endOfFile, "", here⟩ hgap hhere (.inl ⟨rfl, rfl, rfl⟩)
    exact ⟨_, [], rfl, by simpa using hlayout⟩
  | case2 cs pos here c tail hcons lexeme hend =>
    have hsplit := blanks_append_cut interactive cs c tail hcons
    have hhere : here = .behind (before ++ cs.takeWhile isBlank) := by
      rw [show here = pos.after (cs.takeWhile isBlank) from rfl, hpos, Position.after_behind]
    obtain ⟨-, hinteractive, htext⟩ | ⟨hkind, -⟩ | htoken := Lexeme.cut_cases interactive c tail
    · have hgap : Gap interactive (lexeme.text ++ lexeme.rest) (cs.takeWhile isBlank) :=
        gap_takeWhile _ cs
      rw [← String.toList_ofList (l := lexeme.text)] at hgap
      have hlayout := Layout.last _ ⟨.endOfInput, String.ofList lexeme.text, here⟩ hgap hhere
        (.inr ⟨hinteractive, rfl, by rw [htext]⟩)
      rw [String.toList_ofList, hsplit] at hlayout
      exact ⟨_, _, rfl, hlayout⟩
    · rw [hend] at hkind
      cases hkind
    · exact absurd hend (htoken.kind_ne .endOfInput rfl (by decide))
  | case3 cs pos here c tail hcons lexeme hend after ih =>
    have hsplit := blanks_append_cut interactive cs c tail hcons
    have hhere : here = .behind (before ++ cs.takeWhile isBlank) := by
      rw [show here = pos.after (cs.takeWhile isBlank) from rfl, hpos, Position.after_behind]
    obtain ⟨spans, rest, htokens, hlayout⟩ := ih (before ++ cs.takeWhile isBlank ++ lexeme.text)
      (by rw [hhere, Position.after_behind])
    dsimp only
    obtain ⟨hkind, -⟩ | ⟨hkind, body, htext, hbody, hopen, hstop⟩ | htoken :=
      Lexeme.cut_cases interactive c tail
    · exact absurd hkind hend
    · have hgap : Gap interactive lexeme.rest (cs.takeWhile isBlank ++ lexeme.text) := by
        have hcomment : Gap interactive lexeme.rest (';' :: body ++ []) :=
          .comment body [] hbody hopen hstop .done
        rw [List.append_nil, ← htext] at hcomment
        exact (gap_takeWhile _ cs).append hcomment
      rw [List.append_assoc] at hlayout
      obtain ⟨s, post, rfl, hskip⟩ := hlayout.skip _ hgap
      rw [List.append_assoc, hsplit] at hskip
      exact ⟨_, rest, by rw [if_pos hkind]; exact htokens, hskip⟩
    · have hcomment := htoken.kind_ne .comment rfl (by decide)
      have hfirst := hlayout.cons (cs.takeWhile isBlank) lexeme htoken (gap_takeWhile _ cs)
      rw [hsplit, ← hhere] at hfirst
      exact ⟨_, rest, by rw [if_neg hcomment, ← htokens]; rfl, hfirst⟩

/-- **Nothing is lost, and every position is right.** Whatever the policy, tokens that are returned
lie in the source text: the text is made up of them and of gaps of blanks and comments, and each
position is told by the text in front of it. Every newline up to the end marker is a token, and the
end of the file is at the end of the text. -/
theorem tokenize_layout (interactive : Bool) (text : String) (report report' : Report)
    (tokens : List Token) (h : tokenize interactive text report = .ok (tokens, report')) :
    ∃ spans rest, spans.map Span.token = tokens ∧
      Layout interactive [] text.toList spans rest ∧
      ∀ front tail, Span.source spans = front ++ '\n' :: tail →
        ∃ pre s post, spans = pre ++ s :: post ∧ s.token.kind = .newline ∧ s.token.text = "\n" ∧
          front = Span.source pre ++ s.gap := by
  rw [tokenize_eq_outcome] at h
  obtain ⟨spans, rest, htokens, hlayout⟩ := exists_layout interactive text.toList .start [] rfl
  rw [← Report.value_of_outcome _ _ _ _ _ h] at htokens
  exact ⟨spans, rest, htokens, hlayout, hlayout.newline_is_token⟩

/-- A tab, a comment, a line that an unknown character makes invalid, and a session that ends before
its text does. -/
theorem tokenize_layout_session :
    ∃ tokens report',
      tokens.map (fun t => (t.text, t.position.line, t.position.column)) =
        [("push", 1, 1), ("int8", 1, 6), ("(", 1, 10), ("-1", 1, 11), (")", 1, 13), ("\n", 1, 20),
          ("?é;;\r", 2, 2), ("\n", 2, 7), (";;", 3, 2)] ∧
      tokenize true "push\tint8(-1) ; one\n\u00a0?é;;\r\n ;;rest" { policy := .collect } =
        .ok (tokens, report') ∧
      ∃ spans rest, spans.map Span.token = tokens ∧
        Layout true [] "push\tint8(-1) ; one\n\u00a0?é;;\r\n ;;rest".toList spans rest := by
  let tokens : List Token :=
    [⟨.opcode .push, "push", ⟨1, 1⟩⟩, ⟨.type .int8, "int8", ⟨1, 6⟩⟩, ⟨.leftParen, "(", ⟨1, 10⟩⟩,
      ⟨.integer, "-1", ⟨1, 11⟩⟩, ⟨.rightParen, ")", ⟨1, 13⟩⟩, ⟨.newline, "\n", ⟨1, 20⟩⟩,
      ⟨.invalid, "?é;;\r", ⟨2, 2⟩⟩, ⟨.newline, "\n", ⟨2, 7⟩⟩, ⟨.endOfInput, ";;", ⟨3, 2⟩⟩]
  have htokens : tokenize true "push\tint8(-1) ; one\n\u00a0?é;;\r\n ;;rest"
      { policy := .collect } = .ok (tokens, ⟨.collect, [.unexpectedCharacter ⟨2, 2⟩ '?']⟩) := by
    decide +kernel
  obtain ⟨spans, rest, hspans, hlayout, -⟩ := tokenize_layout true _ _ _ _ htokens
  exact ⟨tokens, _, rfl, htokens, spans, rest, hspans, hlayout⟩

end Token

end NumStack
