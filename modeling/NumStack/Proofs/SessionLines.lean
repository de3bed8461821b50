import NumStack.Proofs.Lines
import NumStack.Session
import Mathlib.Data.List.TakeWhile

/-!
# Sessions line by line

The bytes of a text are split where the text has its newlines, since no other character has a line
feed among its bytes. So a session that is read from the bytes of a text is described by the lines
of the text: each is read without the carriage return at its end, up to the first terminator line.
-/

namespace NumStack

/-! ## Lines of a text -/

/-- **Line by line.** A text is one line, or a line, a newline and a text. -/
theorem lines_induction {motive : List Char → Prop}
    (last : ∀ line, '\n' ∉ line → motive line)
    (more : ∀ line rest, '\n' ∉ line → motive rest → motive (line ++ '\n' :: rest))
    (cs : List Char) : motive cs := by
  induction h : cs.length using Nat.strongRecOn generalizing cs with
  | ind n ih =>
    by_cases hmem : '\n' ∈ cs
    · obtain ⟨line, rest, rfl, hline⟩ := List.eq_append_cons_of_mem hmem
      refine more line rest hline (ih rest.length ?_ rest rfl)
      rw [← h, List.length_append, List.length_cons]
      omega
    · exact last cs hmem

namespace Session

/-- The part of a line in front of its first semicolon. -/
def opening (line : List Char) : List Char := line.takeWhile (· != ';')

theorem semicolon_not_mem_opening (line : List Char) : ';' ∉ opening line := by
  intro h
  have hne := List.mem_takeWhile_imp h
  simp at hne

theorem opening_of_not_mem (line : List Char) (h : ';' ∉ line) : opening line = line :=
  List.takeWhile_eq_self_iff.2 fun _ hc => bne_iff_ne.2 fun heq => h (heq ▸ hc)

theorem newline_not_mem_opening (line : List Char) (h : '\n' ∉ line) : '\n' ∉ opening line :=
  fun hmem => h ((List.takeWhile_prefix _).subset hmem)

/-- **What follows the opening of a line**: two semicolons if the line is a terminator, and
otherwise nothing or one semicolon and a comment. -/
theorem opening_cases (line : List Char) :
    (endsInput line = true ∧ ∃ back, line = opening line ++ ';' :: ';' :: back) ∨
      (endsInput line = false ∧ (line = opening line ∨
        ∃ back, line = opening line ++ ';' :: back ∧ back.head? ≠ some ';')) := by
  have hsplit : line = opening line ++ line.dropWhile (· != ';') :=
    List.takeWhile_append_dropWhile.symm
  have hhead := List.head?_dropWhile_not (· != ';') line
  cases hdrop : line.dropWhile (· != ';') with
  | nil =>
    rw [hdrop, List.append_nil] at hsplit
    exact .inr ⟨by rw [endsInput, hdrop], .inl hsplit⟩
  | cons c back =>
    rw [hdrop] at hsplit hhead
    obtain rfl : c = ';' := by simpa using hhead
    cases back with
    | nil => exact .inr ⟨by rw [endsInput, hdrop], .inr ⟨[], hsplit, by simp⟩⟩
    | cons d back =>
      have hends : endsInput line = (d == ';') := by rw [endsInput, hdrop]
      by_cases hd : d = ';'
      · subst hd
        exact .inl ⟨hends, back, hsplit⟩
      · exact .inr ⟨by simp [hends, hd], .inr ⟨_, hsplit, by simp [hd]⟩⟩

/-! ## Line ends -/

/-- A line without the carriage return at its end. -/
def dropReturn (line : List Char) : List Char :=
  if line.getLast? = some '\r' then line.dropLast else line

/-- A line is what is left of it, and a carriage return if there was one. -/
theorem dropReturn_cases (line : List Char) :
    dropReturn line = line ∨ line = dropReturn line ++ ['\r'] := by
  unfold dropReturn
  split
  · rename_i h
    obtain ⟨front, rfl⟩ := List.getLast?_eq_some_iff.1 h
    exact .inr (by rw [List.dropLast_concat])
  · exact .inl rfl

theorem newline_not_mem_dropReturn (line : List Char) (h : '\n' ∉ line) :
    '\n' ∉ dropReturn line := by
  intro hmem
  obtain heq | heq := dropReturn_cases line
  · exact h (heq ▸ hmem)
  · exact h (heq ▸ List.mem_append_left _ hmem)

/-- A character other than a semicolon, put at the end of a line, does not make it a terminator. -/
theorem endsInput_concat (line : List Char) (c : Char) (hc : c ≠ ';') :
    endsInput (line ++ [c]) = endsInput line := by
  induction line with
  | nil => simp [endsInput, hc]
  | cons d line ih =>
    by_cases hd : d = ';'
    · subst hd
      cases line with
      | nil => simp [endsInput, hc]
      | cons e line => rfl
    · have hskip : ∀ cs, endsInput (d :: cs) = endsInput cs := fun cs => by simp [endsInput, hd]
      rw [List.cons_append, hskip, hskip, ih]

/-- The carriage return at the end does not make a line a terminator. -/
theorem endsInput_dropReturn (line : List Char) : endsInput (dropReturn line) = endsInput line := by
  rcases dropReturn_cases line with h | h
  · rw [h]
  · rw [← endsInput_concat _ '\r' (by decide), ← h]

/-- The line end of a line with a newline is the newline, and the carriage return in front of it. -/
theorem stripLineEnd_newline (line : List Char) :
    stripLineEnd (line ++ ['\n']) = dropReturn line := by
  rcases List.eq_nil_or_concat line with rfl | ⟨front, c, rfl⟩
  · rfl
  · by_cases hc : c = '\r'
    · subst hc
      simp [stripLineEnd, dropReturn]
    · simp [stripLineEnd, dropReturn, hc]

/-- Without a newline at the end there is no line end. -/
theorem stripLineEnd_of_getLast? (line : List Char) (h : line.getLast? ≠ some '\n') :
    stripLineEnd line = line := by
  rw [← List.head?_reverse] at h
  unfold stripLineEnd
  split
  · rename_i heq
    exact absurd (heq ▸ rfl) h
  · rename_i heq
    exact absurd (heq ▸ rfl) h
  · rfl

theorem stripLineEnd_of_not_mem (line : List Char) (h : '\n' ∉ line) : stripLineEnd line = line :=
  stripLineEnd_of_getLast? line fun hlast => h (List.mem_of_getLast? hlast)

/-! ## Reading the lines of a text -/

/-- A byte below 128 is a character of its own: no other character has it among its bytes. -/
theorem eq_of_byte_mem (a c : Char) (ha : a.toNat < 128)
    (h : UInt8.ofNat a.toNat ∈ String.utf8EncodeChar c) : c = a := by
  have hbyte : ∀ n, UInt8.ofNat a.toNat = UInt8.ofNat n ↔ a.toNat = n % 256 := by
    intro n
    rw [← UInt8.toNat_inj, UInt8.toNat_ofNat', UInt8.toNat_ofNat',
      Nat.mod_eq_of_lt (show a.toNat < 2 ^ 8 by omega)]
  unfold String.utf8EncodeChar at h
  simp only at h
  split at h
  · rw [List.mem_singleton, hbyte] at h
    apply Char.toNat_inj.1
    show c.val.toNat = a.toNat
    omega
  · -- the bytes of a character of several bytes are above all codes of one byte
    repeat' split at h
    all_goals
      simp only [List.mem_cons, List.not_mem_nil, or_false, hbyte] at h
      omega

theorem byte_not_mem_encode (a : Char) (ha : a.toNat < 128) (cs : List Char) (h : a ∉ cs) :
    UInt8.ofNat a.toNat ∉ Utf8.encode cs := by
  intro hmem
  obtain ⟨c, hc, hbyte⟩ := List.mem_flatMap.1 hmem
  exact h (eq_of_byte_mem a c ha hbyte ▸ hc)

theorem lineFeed_not_mem_encode (line : List Char) (h : '\n' ∉ line) :
    lineFeed ∉ Utf8.encode line :=
  byte_not_mem_encode '\n' (by decide) line h

/-- The first line of a stream ends with its first line feed. -/
theorem splitLine_line (body rest : List UInt8) (h : lineFeed ∉ body) :
    splitLine (body ++ lineFeed :: rest) = (body ++ [lineFeed], rest) := by
  obtain ⟨htake, hdrop⟩ := run_append_first lineFeed body rest h
  rw [splitLine, hdrop, htake]

/-- A stream without a line feed is one line. -/
theorem splitLine_last (bytes : List UInt8) (h : lineFeed ∉ bytes) :
    splitLine bytes = (bytes, []) := by
  have hdrop : bytes.dropWhile (· != lineFeed) = [] := by
    rw [List.dropWhile_eq_nil_iff]
    intro b hb
    exact bne_iff_ne.2 fun heq => h (heq ▸ hb)
  rw [splitLine, hdrop]

theorem splitLine_encode_line (line rest : List Char) (h : '\n' ∉ line) :
    splitLine (Utf8.encode (line ++ '\n' :: rest)) =
      (Utf8.encode (line ++ ['\n']), Utf8.encode rest) := by
  rw [Utf8.encode_append, Utf8.encode_append]
  exact splitLine_line _ (Utf8.encode rest) (lineFeed_not_mem_encode line h)

theorem splitLine_encode_last (line : List Char) (h : '\n' ∉ line) :
    splitLine (Utf8.encode line) = (Utf8.encode line, []) :=
  splitLine_last _ (lineFeed_not_mem_encode line h)

/-- Reading a stream that is not at its end. -/
theorem read?_of_decodeLine? (bytes : List UInt8) (line : List Char) (hne : bytes ≠ [])
    (h : decodeLine? (splitLine bytes).1 = some line) :
    read? bytes =
      if endsInput line then some (line ++ ['\n'], (splitLine bytes).2)
      else (read? (splitLine bytes).2).map fun r => (line ++ '\n' :: r.1, r.2) := by
  cases bytes with
  | nil => exact absurd rfl hne
  | cons b tail =>
    rw [read?, h]

/-- **Reading one line of a text.** -/
theorem read?_encode_line (line rest : List Char) (h : '\n' ∉ line) :
    read? (Utf8.encode (line ++ '\n' :: rest)) =
      if endsInput line then some (dropReturn line ++ ['\n'], Utf8.encode rest)
      else (read? (Utf8.encode rest)).map fun r => (dropReturn line ++ '\n' :: r.1, r.2) := by
  have hsplit := splitLine_encode_line line rest h
  have hdecode : decodeLine? (splitLine (Utf8.encode (line ++ '\n' :: rest))).1 =
      some (dropReturn line) := by
    rw [hsplit, decodeLine?, Utf8.decode?_encode, Option.map_some, stripLineEnd_newline]
  have hne : Utf8.encode (line ++ '\n' :: rest) ≠ [] := by
    rw [Utf8.encode_append]
    exact List.append_ne_nil_of_right_ne_nil _ (List.cons_ne_nil _ _)
  rw [read?_of_decodeLine? _ _ hne hdecode, hsplit, endsInput_dropReturn]

/-- **Reading the last line of a text**, which gets a newline. -/
theorem read?_encode_last (line : List Char) (h : '\n' ∉ line) (hne : line ≠ []) :
    read? (Utf8.encode line) = some (line ++ ['\n'], []) := by
  have hsplit := splitLine_encode_last line h
  have hdecode : decodeLine? (splitLine (Utf8.encode line)).1 = some line := by
    rw [hsplit, decodeLine?, Utf8.decode?_encode, Option.map_some, stripLineEnd_of_not_mem line h]
  have hbytes : Utf8.encode line ≠ [] := by
    intro heq
    have hdecoded := Utf8.decode?_encode line
    rw [heq] at hdecoded
    exact hne (Option.some.inj (hdecoded.symm.trans (Utf8.decode?_encode [])))
  have hend : read? [] = some ([], []) := by rw [read?]
  rw [read?_of_decodeLine? _ _ hbytes hdecode, hsplit, hend]
  split <;> rfl

end Session

end NumStack
