import NumStack.Proofs.TerminatorLines

/-!
# Terminated text

A text that lacks nothing but its terminator is read in a session, once the terminator is put
behind it, as it is read in a file. The two readings end with different markers, so a fault at the
end of the text names `;;` in the one and the end of the file in the other. What stands behind the
terminator is not read at all.
-/

namespace NumStack

/-! ## The end marker in faults -/

/-- What a fault of a file names in place of what a fault of a session names. -/
def namedInFile (found : String) : String := if found = ";;" then "end of file" else found

/-- The fault of a file in place of the fault of a session. -/
def SourceFault.asInFile : SourceFault → SourceFault
  | expectedKind p found => expectedKind p (namedInFile found)
  | expectedNumber p found => expectedNumber p (namedInFile found)
  | unexpectedToken p expected found => unexpectedToken p expected (namedInFile found)
  | fault => fault

theorem SourceFault.line?_asInFile (fault : SourceFault) : fault.asInFile.line? = fault.line? := by
  cases fault <;> rfl

/-- A token of a session and the token of a file in its place: the same one, or the two end
markers. -/
def Token.SameInFile (t u : Token) : Prop :=
  (t = u ∧ t.describe ≠ ";;") ∨
    (t.kind = .endOfInput ∧ t.text = ";;" ∧ u = ⟨.endOfFile, "", t.position⟩)

namespace Token.SameInFile

variable {t u : Token}

theorem position (h : t.SameInFile u) : t.position = u.position := by
  obtain ⟨rfl, -⟩ | ⟨-, -, rfl⟩ := h <;> rfl

/-- Faults name the token of the file in place of that of the session. -/
theorem named (h : t.SameInFile u) : namedInFile t.describe = u.describe := by
  obtain ⟨rfl, hname⟩ | ⟨hkind, htext, rfl⟩ := h
  · exact if_neg hname
  · have hname : t.describe = ";;" := by rw [describe, hkind, htext]
    exact if_pos hname

/-- Apart from the end markers, the tokens are the same. -/
theorem eq_of_isEnd (h : t.SameInFile u) (hend : t.isEnd = false) : t = u := by
  obtain ⟨rfl, -⟩ | ⟨hkind, -⟩ := h
  · rfl
  · simp [isEnd, hkind] at hend

end Token.SameInFile

/-- Tokens of a session and of a file are read alike. -/
theorem correspondence_asInFile :
    Correspondence Token.SameInFile (fun f g => f.asInFile = g) where
  kind := by
    rintro t u (⟨rfl, -⟩ | ⟨hkind, -, rfl⟩)
    · exact .inl rfl
    · exact .inr ⟨by simp [Token.isEnd, hkind], rfl⟩
  text h hend := by rw [h.eq_of_isEnd hend]
  unknownInstruction h hend := by
    rw [h.eq_of_isEnd hend]
    rfl
  expectedKind h := by rw [SourceFault.asInFile, h.position, h.named]
  expectedNumber h := by rw [SourceFault.asInFile, h.position, h.named]
  unexpectedToken h expected := by rw [SourceFault.asInFile, h.position, h.named]
  invalidOperand h cause := by
    rw [h.position]
    rfl

namespace Token

/-! ## The tokens of a terminated text -/

/-- In a file no token is written as two semicolons. -/
theorem text_ne_of_mem_lexed (cs : List Char) (pos : Position) :
    ∀ t ∈ (lexed false cs pos).1, t.text ≠ ";;" := by
  intro t ht htext
  obtain ⟨-, ⟨-, hempty⟩ | ⟨c, tail, hkind, hcomment, hcut⟩⟩ :=
    exists_cut_of_mem_lexed false cs pos t ht
  · exact absurd (hempty.symm.trans htext) (by decide)
  · -- a lexeme that starts with a semicolon is a comment
    have hsemicolons : (Lexeme.cut false c tail).text = [';', ';'] :=
      String.ofList_injective (hcut.symm.trans htext)
    have happend := Lexeme.cut_append false c tail
    rw [hsemicolons] at happend
    obtain ⟨rfl, -⟩ := List.cons.inj happend
    exact hcomment hkind

/-- A token that is not written as two semicolons is not described by them either. -/
theorem describe_ne (t : Token) (h : t.text ≠ ";;") : t.describe ≠ ";;" := by
  unfold describe
  split
  · decide
  · decide
  · exact h

/-- Nothing follows a missing terminator. -/
theorem eq_nil_of_missingTerminator (interactive : Bool) (cs : List Char) (pos : Position) (n : Nat)
    (faults : List SourceFault)
    (h : (lexed interactive cs pos).2 = .missingTerminator n :: faults) : faults = [] := by
  fun_induction lexed interactive cs pos with
  | case1 cs pos here hnil =>
    cases interactive with
    | false => cases h
    | true => exact (List.cons.inj h).2.symm
  | case2 cs pos here c tail hcons lexeme hend => cases h
  | case3 cs pos here c tail hcons lexeme hend after ih =>
    dsimp only at h
    split at h
    · cases h
    · exact ih h

/-- A semicolon that is not on the last line of a text stands in front of a newline. -/
theorem newline_mem_of_last_line (front back : List Char)
    (h : ∀ line ∈ ((front ++ ';' :: back).splitOn '\n').getLast?, ';' ∉ line) : '\n' ∈ back := by
  by_contra hback
  induction front using lines_induction with
  | last line hline =>
    have hall : '\n' ∉ line ++ ';' :: back := by simp [hline, hback]
    rw [List.splitOn_eq_singleton hall] at h
    exact h _ rfl (List.mem_append_right _ List.mem_cons_self)
  | more line rest hline ih =>
    apply ih
    intro last hlast
    apply h last
    rw [List.append_assoc, List.cons_append, List.splitOn_append_cons_self_of_not_mem hline,
      List.getLast?_cons, Option.mem_def.1 hlast]
    rfl

/-- **The tokens of a terminated text** are those of the file without the terminator, up to the end
marker. -/
theorem exists_lexed_terminated (a : List Char) (n : Nat)
    (h : (lexed true a .start).2 = [.missingTerminator n])
    (hlast : ∀ line ∈ (a.splitOn '\n').getLast?, ';' ∉ line) :
    ∃ tokens, List.Forall₂ SameInFile tokens (lexed false a .start).1 ∧
      (lexed false a .start).2 = [] ∧
      ∀ b, lexed true (a ++ ';' :: ';' :: b) .start = (tokens, []) := by
  have hsemicolon : ∀ front back, a = front ++ ';' :: back → '\n' ∈ back := by
    rintro front back rfl
    exact newline_mem_of_last_line front back hlast
  obtain ⟨tokens, hends, hlexed⟩ := exists_lexed_append_of_break a .start n h hsemicolon
  have hfile := hlexed false [] (by simp)
  rw [List.append_nil, lexed_of_dropWhile_eq_nil false [] _ rfl] at hfile
  refine ⟨tokens ++ [⟨.endOfInput, ";;", Position.start.after a⟩], ?_, ?_, ?_⟩
  · have htexts := text_ne_of_mem_lexed a .start
    rw [hfile] at htexts ⊢
    apply List.rel_append
    · rw [List.forall₂_same]
      intro t ht
      exact .inl ⟨rfl, describe_ne t (htexts t (List.mem_append_left _ ht))⟩
    · exact .cons (.inr ⟨rfl, rfl, rfl⟩) .nil
  · rw [hfile]
    rfl
  · intro b
    rw [hlexed true (';' :: ';' :: b) (by rintro c ⟨⟩; rfl), lexed_terminator]

end Token

namespace Program

/-! ## Assembling a terminated text -/

/-- Assembling depends on the tokens and faults of a text only. -/
theorem assembleWith_congr (options : Options) (a b : String)
    (h : Token.lexed options.interactive a.toList .start =
      Token.lexed options.interactive b.toList .start) :
    assembleWith options a = assembleWith options b := by
  rw [assembleWith, assembleWith, read_eq_outcome, read_eq_outcome, allFaults, allFaults, tokensOf,
    tokensOf, h]

/-- Where one text has the program and, up to a change of each that keeps its line, the faults of
another, it is assembled to the same program, or with the same change of the faults. -/
theorem mapError_assembleWith (policy : Policy) (interactive interactive' : Bool) (a b : String)
    (f : SourceFault → SourceFault) (hf : ∀ fault, (f fault).line? = fault.line?)
    (hprogram : (linesRead (tokensOf interactive a)).1 = (linesRead (tokensOf interactive' b)).1)
    (hfaults : (allFaults interactive a).map f = allFaults interactive' b) :
    (assembleWith ⟨policy, interactive⟩ a).mapError (List.map f) =
      assembleWith ⟨policy, interactive'⟩ b := by
  cases policy with
  | failFast =>
    rw [assembleWith_failFast, assembleWith_failFast, ← hfaults, hprogram]
    cases allFaults interactive a <;> rfl
  | collect =>
    rw [assembleWith_collect, assembleWith_collect, ← hfaults, hprogram]
    have hle : ∀ x y, faultLe x y = faultLe (f x) (f y) := by
      intro x y
      rw [faultLe, faultLe, hf, hf]
    cases allFaults interactive a with
    | nil => rfl
    | cons fault faults =>
      show Except.error (List.map f ((fault :: faults).mergeSort faultLe)) = _
      rw [List.map_mergeSort fun x _ y _ => hle x y]
      rfl

/-- **Sessions and files agree up to the terminator.** Let nothing be wrong with the text `a` as a
session but that its terminator is missing, and let there be no semicolon on its last line. Then
under either policy, `a` with a terminator and any text `b` behind it is assembled as the file `a`
is: to the same program, or with the same faults, at the same positions and in the same order, that
only name the end of the file where those of the session name `;;`. The text `b` has no
influence. -/
theorem assembleWith_terminated (a b : String) (n : Nat) (policy : Policy)
    (ha : Token.tokenize true a { policy := .failFast } = .error (.missingTerminator n))
    (hlast : ∀ line ∈ (a.toList.splitOn '\n').getLast?, ';' ∉ line) :
    (assembleWith ⟨policy, true⟩ (a ++ ";;" ++ b)).mapError (List.map SourceFault.asInFile) =
        assembleWith ⟨policy, false⟩ a ∧
      ∀ b', assembleWith ⟨policy, true⟩ (a ++ ";;" ++ b) =
        assembleWith ⟨policy, true⟩ (a ++ ";;" ++ b') := by
  have hfaults : (Token.lexed true a.toList .start).2 = [.missingTerminator n] := by
    rw [Token.tokenize_eq_outcome] at ha
    cases hlexed : (Token.lexed true a.toList .start).2 with
    | nil =>
      rw [hlexed] at ha
      cases ha
    | cons fault faults =>
      rw [hlexed] at ha
      cases ha
      rw [Token.eq_nil_of_missingTerminator true _ _ n faults hlexed]
  obtain ⟨tokens, hsame, hfile, hsession⟩ := Token.exists_lexed_terminated a.toList n hfaults hlast
  have hlexed : ∀ b : String,
      Token.lexed true (a ++ ";;" ++ b).toList .start = (tokens, []) := by
    intro b
    rw [← hsession b.toList, String.toList_append, String.toList_append, List.append_assoc]
    rfl
  constructor
  · have htokens : tokensOf true (a ++ ";;" ++ b) = tokens := congrArg Prod.fst (hlexed b)
    have hstopped : Token.Stopped tokens := htokens ▸ Token.lexed_stopped true _
    obtain ⟨hprogram, hread⟩ := correspondence_asInFile.linesRead tokens _ hsame hstopped
    rw [forall₂_eq_iff_map] at hread
    apply mapError_assembleWith policy true false _ a _ SourceFault.line?_asInFile
    · rw [htokens, hprogram]
      rfl
    · rw [allFaults, allFaults, hlexed, hfile, htokens, parseFaults, parseFaults, tokensOf,
        hprogram, List.nil_append, List.nil_append, List.map_append, hread]
      split <;> rfl
  · intro b'
    apply assembleWith_congr
    rw [hlexed b, hlexed b']

/-- A text with two semicolons in a comment, whose last line lacks a number: the session names `;;`
where the file names its end, whatever follows. -/
theorem assembleWith_terminated_push :
    let a := "exit ; not ;; here\npush int8"
    Token.tokenize true a { policy := .failFast } = .error (.missingTerminator 2) ∧
      (∀ line ∈ (a.toList.splitOn '\n').getLast?, ';' ∉ line) ∧
      assembleWith ⟨.failFast, false⟩ a = .error [.expectedNumber ⟨2, 10⟩ "end of file"] ∧
      (assembleWith ⟨.failFast, true⟩ (a ++ ";;" ++ " @ ;;")).mapError
        (List.map SourceFault.asInFile) = .error [.expectedNumber ⟨2, 10⟩ "end of file"] := by
  intro a
  have ha : Token.tokenize true a { policy := .failFast } = .error (.missingTerminator 2) := by
    decide +kernel
  have hlast : ∀ line ∈ (a.toList.splitOn '\n').getLast?, ';' ∉ line := by decide +kernel
  have hfile : assembleWith ⟨.failFast, false⟩ a =
      .error [.expectedNumber ⟨2, 10⟩ "end of file"] := by
    decide +kernel
  exact ⟨ha, hlast, hfile, (assembleWith_terminated a _ 2 .failFast ha hlast).1.trans hfile⟩

end Program

end NumStack
