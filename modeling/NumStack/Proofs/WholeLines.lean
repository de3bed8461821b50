import NumStack.Proofs.Breaks
import NumStack.Proofs.Grammar

/-!
# Texts of whole lines

No token and no line of a source text goes on behind a newline. So behind a text of whole lines the
scanner starts afresh: what it has found up to there does not depend on what follows, and what
follows is scanned as if it stood alone, only at another position. The same holds of the lines of
tokens behind a newline token.
-/

namespace NumStack

/-- The text is empty or ends with a newline. -/
def WholeLines (cs : List Char) : Prop := ∀ c ∈ cs.getLast?, c = '\n'

namespace WholeLines

theorem of_append {cs ds : List Char} (h : WholeLines (cs ++ ds)) : WholeLines ds := by
  intro c hc
  apply h c
  rw [List.getLast?_append, Option.mem_def.1 hc]
  rfl

theorem newline_mem {cs : List Char} (h : WholeLines cs) (hne : cs ≠ []) : '\n' ∈ cs := by
  have hlast := h (cs.getLast hne) (List.getLast?_eq_some_getLast hne)
  rw [← hlast]
  exact List.getLast_mem hne

theorem eq_nil_of_blank {cs : List Char} (h : WholeLines cs) (hblank : ∀ c ∈ cs, isBlank c = true) :
    cs = [] := by
  by_contra hne
  have hnewline := hblank '\n' (h.newline_mem hne)
  rw [isBlank_newline] at hnewline
  cases hnewline

end WholeLines

namespace Lexeme

theorem cut_kind_ne_endOfInput (c : Char) (cs : List Char) :
    (cut false c cs).kind ≠ .endOfInput := by
  obtain ⟨-, hinteractive, -⟩ | ⟨hkind, -⟩ | htoken := cut_cases false c cs
  · cases hinteractive
  · simp [hkind]
  · exact htoken.kind_ne .endOfInput rfl (by decide)

end Lexeme

/-! ## Tokens in front of a newline -/

namespace Position

/-- A text moves the line by its newlines. -/
theorem line_after (p : Position) (cs : List Char) :
    (p.after cs).line = p.line + cs.count '\n' := by
  induction cs generalizing p with
  | nil => rfl
  | cons c cs ih =>
    rw [after_cons, ih]
    by_cases hc : c = '\n'
    · subst hc
      simp [next]
      omega
    · simp [next, hc]

theorem line_lt_after (p : Position) (cs : List Char) (h : '\n' ∈ cs) :
    p.line < (p.after cs).line := by
  have hcount := List.count_pos_iff.2 h
  rw [line_after]
  omega

end Position

namespace Token

/-- What scanning finds on whole lines above the given line: tokens that end with a newline, none of
them an end marker, and faults, all with their lines. -/
structure Above (line : Nat) (tokens : List Token) (faults : List SourceFault) : Prop where
  newline : ∀ t ∈ tokens.getLast?, t.isNewline = true
  noEnd : ∀ t ∈ tokens, t.isEnd = false
  tokenLine : ∀ t ∈ tokens, t.position.line < line
  faultLine : ∀ fault ∈ faults, ∃ k, fault.line? = some k ∧ k < line

/-- A lexeme in front of what was found behind it, where it is the last thing found only if it is a
newline. -/
theorem Above.cons {line : Nat} {tokens : List Token} {faults : List SourceFault} (t : Token)
    (hend : t.isEnd = false) (hline : t.position.line < line)
    (hnewline : tokens = [] → t.isNewline = true) (h : Above line tokens faults) :
    Above line (t :: tokens) faults where
  newline := by
    intro t' ht'
    cases tokens with
    | nil =>
      cases ht'
      exact hnewline rfl
    | cons u us =>
      rw [List.getLast?_cons_cons] at ht'
      exact h.newline t' ht'
  noEnd := List.forall_mem_cons.2 ⟨hend, h.noEnd⟩
  tokenLine := List.forall_mem_cons.2 ⟨hline, h.tokenLine⟩
  faultLine := h.faultLine

/-- A fault in front of those found behind it. -/
theorem Above.fault {line : Nat} {tokens : List Token} {faults : List SourceFault}
    (fault : SourceFault) (k : Nat) (hk : fault.line? = some k) (hline : k < line)
    (h : Above line tokens faults) : Above line tokens (fault :: faults) where
  newline := h.newline
  noEnd := h.noEnd
  tokenLine := h.tokenLine
  faultLine := List.forall_mem_cons.2 ⟨⟨k, hk, hline⟩, h.faultLine⟩

/-- **Scanning starts afresh behind whole lines.** What it finds on them does not depend on what
follows. -/
theorem exists_lexed_append (a : List Char) (pos : Position) (ha : WholeLines a) :
    ∃ tokens faults, Above (pos.after a).line tokens faults ∧ (a ≠ [] → tokens ≠ []) ∧
      ∀ b, lexed false (a ++ b) pos = (tokens ++ (lexed false b (pos.after a)).1,
        faults ++ (lexed false b (pos.after a)).2) := by
  fun_induction lexed false a pos with
  | case1 a pos here hnil =>
    obtain rfl := ha.eq_nil_of_blank (List.dropWhile_eq_nil_iff.1 hnil)
    exact ⟨[], [], ⟨by simp, by simp, by simp, by simp⟩, fun h => absurd rfl h, fun b => rfl⟩
  | case2 a pos here c tail hcons lexeme hend =>
    exact absurd hend (Lexeme.cut_kind_ne_endOfInput c tail)
  | case3 a pos here c tail hcons lexeme hend after ih =>
    have hsplit := blanks_append_cut false a c tail hcons
    have hcut := Lexeme.cut_append false c tail
    have hrest : WholeLines lexeme.rest := by
      rw [← hsplit, ← List.append_assoc] at ha
      exact ha.of_append
    have hnewline : '\n' ∈ c :: tail := by
      rw [← hsplit, hcut] at ha
      exact ha.of_append.newline_mem (List.cons_ne_nil c tail)
    obtain ⟨tokens, faults, habove, hne, hlexed⟩ := ih hrest
    -- where the lexeme starts, and where the text behind it ends
    have hafter : (here.after lexeme.text).after lexeme.rest = pos.after a := by
      rw [← Position.after_append, ← Position.after_append, hsplit]
    have hline : here.line < (pos.after a).line := by
      rw [← hafter, ← Position.after_append, hcut]
      exact here.line_lt_after _ hnewline
    rw [hafter] at habove hlexed
    have hstep : ∀ b, lexed false (a ++ b) pos =
        (if lexeme.kind = .comment then tokens ++ (lexed false b (pos.after a)).1
          else ⟨lexeme.kind, String.ofList lexeme.text, here⟩ ::
            (tokens ++ (lexed false b (pos.after a)).1),
          (if lexeme.kind = .invalid then .unexpectedCharacter here c :: faults else faults) ++
            (lexed false b (pos.after a)).2) := by
      intro b
      rw [lexed_append_of_cut false a b pos c tail hcons lexeme
        (Lexeme.cut_append_of_newline false c tail b hnewline) hend]
      show (if lexeme.kind = .comment then (lexed false (lexeme.rest ++ b) _).1
        else _ :: (lexed false (lexeme.rest ++ b) _).1, _) = _
      rw [hlexed b]
      congr 1
      split <;> rfl
    have hfaults : Above (pos.after a).line tokens
        (if lexeme.kind = .invalid then .unexpectedCharacter here c :: faults else faults) := by
      split
      · exact habove.fault _ here.line rfl hline
      · exact habove
    obtain ⟨hkind, -⟩ | ⟨hkind, body, htext, hbody, -, -⟩ | htoken := Lexeme.cut_cases false c tail
    · exact absurd hkind hend
    · -- the newline is behind the comment
      refine ⟨tokens, _, hfaults, ?_, ?_⟩
      · intro _
        apply hne
        intro hnil
        rw [← hcut, htext, show (Lexeme.cut false c tail).rest = [] from hnil] at hnewline
        simp [hbody] at hnewline
      · intro b
        rw [hstep b, if_pos hkind]
    · have hcomment := htoken.kind_ne .comment rfl (by decide)
      refine ⟨⟨lexeme.kind, String.ofList lexeme.text, here⟩ :: tokens, _,
        hfaults.cons _ ?_ hline ?_, fun _ => List.cons_ne_nil _ _, ?_⟩
      · exact htoken.isEnd_eq _ _
      · -- with nothing behind the lexeme, the newline is in it
        intro hnil
        have hrest' : lexeme.rest = [] := by
          by_contra hrest'
          exact hne hrest' hnil
        rw [← hcut, show (Lexeme.cut false c tail).rest = [] from hrest',
          List.append_nil] at hnewline
        obtain ⟨hkind, -⟩ | ⟨-, htext⟩ := htoken
        · exact decide_eq_true hkind
        · exact absurd hnewline htext
      · intro b
        rw [hstep b, if_neg hcomment, List.cons_append]

end Token

namespace Program

/-! ## Lines in front of a newline -/

/-- **Reading starts afresh behind a newline.** The lines up to a newline token are read whatever
follows, and what follows is read as if it stood alone. -/
theorem linesRead_append_newline (tokens : List Token) (newline : Token)
    (hnewline : newline.isNewline = true) (hend : ∀ t ∈ tokens, t.isEnd = false)
    (more : List Token) :
    linesRead (tokens ++ newline :: more) =
      ((linesRead (tokens ++ [newline])).1 ++ (linesRead more).1,
        (linesRead (tokens ++ [newline])).2 ++ (linesRead more).2) := by
  have hout := newline.inLine_of_isNewline hnewline
  have hsingle : ∀ t ∈ [newline], t.isNewline = true := by simpa using hnewline
  induction hlen : tokens.length using Nat.strongRecOn generalizing tokens with
  | ind n ih =>
    cases hdrop : tokens.dropWhile Token.isNewline with
    | nil =>
      have hnewlines := List.dropWhile_eq_nil_iff.1 hdrop
      have hnone : linesRead [newline] = ([], []) :=
        (linesRead_newlines_append [newline] [] hsingle).trans
          (linesRead_of_dropWhile_eq_nil [] rfl)
      rw [linesRead_newlines_append _ _ hnewlines, linesRead_newlines_append _ _ hnewlines, hnone]
      exact linesRead_newlines_append [newline] more hsingle
    | cons t tail =>
      have hdrop' : ∀ post, (tokens ++ newline :: post).dropWhile Token.isNewline =
          t :: (tail ++ newline :: post) := by
        intro post
        simp [List.dropWhile_append, hdrop]
      have hsuffix : t :: tail <:+ tokens := hdrop ▸ List.dropWhile_suffix Token.isNewline
      have hrest := Token.rest_suffix hdrop
      have ht := hend t (hsuffix.subset List.mem_cons_self)
      have hlt : (tail.dropWhile Token.inLine).length < n := by
        have hle := hsuffix.length_le
        have hle' := (List.dropWhile_suffix Token.inLine (l := tail)).length_le
        rw [List.length_cons] at hle
        omega
      -- both lists start with the same line, and are shorter behind it
      rw [linesRead_of_dropWhile_eq_cons _ _ _ (hdrop' more),
        linesRead_of_dropWhile_eq_cons _ _ _ (hdrop' []), if_neg (by simp [ht]),
        if_neg (by simp [ht]),
        dropWhile_append_stop tail newline hout more, dropWhile_append_stop tail newline hout [],
        ← List.cons_append, ← List.cons_append, first_append_stop (t :: tail) newline hout more,
        first_append_stop (t :: tail) newline hout [],
        ih _ hlt (tail.dropWhile Token.inLine) (fun t' ht' => hend t' (hrest.subset ht')) rfl]
      simp only
      split <;> rfl

/-- The lines of tokens that end with a newline, and those of the tokens behind them. -/
theorem linesRead_append (tokens more : List Token)
    (hnewline : ∀ t ∈ tokens.getLast?, t.isNewline = true) (hend : ∀ t ∈ tokens, t.isEnd = false) :
    linesRead (tokens ++ more) =
      ((linesRead tokens).1 ++ (linesRead more).1, (linesRead tokens).2 ++ (linesRead more).2) := by
  obtain rfl | ⟨init, newline, rfl⟩ := List.eq_nil_or_concat tokens
  · rw [linesRead_of_dropWhile_eq_nil [] rfl]
    rfl
  · rw [List.concat_eq_append] at hnewline hend ⊢
    rw [List.append_assoc, List.singleton_append]
    refine linesRead_append_newline init newline (hnewline newline (by simp)) ?_ more
    intro t ht
    exact hend t (List.mem_append_left _ ht)

end Program

end NumStack
