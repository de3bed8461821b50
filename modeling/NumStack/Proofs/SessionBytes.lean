import Mathlib.Data.List.Infix
import Mathlib.Data.List.SplitBy
import NumStack.Proofs.SessionLines

/-!
# Sessions of arbitrary bytes

A stream of bytes need not be text. It is cut into lines behind its line feeds, and whether a line
is a terminator is seen from its bytes, since the byte of a semicolon belongs to no other character.
So what a session consumes can be told before anything is decoded: the shortest part made of whole
lines that ends with a terminator line, or the whole stream. The session is the text of these lines,
if each of them is valid, and does not depend on what follows them.
-/

namespace NumStack

/-! ## Valid bytes -/

/-- Bytes are decoded exactly to the text whose bytes they are. -/
theorem Utf8.decode?_eq_some_iff (bytes : List UInt8) (cs : List Char) :
    decode? bytes = some cs ↔ bytes = encode cs := by
  refine ⟨fun h => ?_, fun h => h ▸ decode?_encode cs⟩
  by_cases hvalid : bytes.toByteArray.IsValidUTF8
  · obtain ⟨text, htext⟩ := hvalid
    obtain rfl : bytes = encode text := List.toByteArray_inj.1 htext
    rw [decode?_encode] at h
    rw [Option.some.inj h]
  · rw [decode?, String.fromUTF8?, dif_neg hvalid] at h
    cases h

namespace Session

/-! ## Lines of bytes -/

/-- The lines of a byte stream, each with the line feed that ends it: the stream is cut behind every
line feed. -/
def byteLines (bytes : List UInt8) : List (List UInt8) := bytes.splitBy fun b _ => b != lineFeed

theorem flatten_byteLines (bytes : List UInt8) : (byteLines bytes).flatten = bytes :=
  List.flatten_splitBy _ bytes

/-- Some lines of a stream that follow one another are the lines of what they make up. -/
theorem byteLines_flatten (lines : List (List UInt8)) (bytes : List UInt8)
    (h : lines <:+: byteLines bytes) : byteLines lines.flatten = lines := by
  have hborders := List.isChain_getLast_head_splitBy (fun b _ => b != lineFeed) bytes
  apply List.splitBy_flatten
  · exact fun hnil => List.nil_notMem_splitBy _ bytes (h.subset hnil)
  · exact fun _ hline => List.isChain_of_mem_splitBy (h.subset hline)
  · exact List.IsChain.infix hborders h

/-- Bytes without a line feed, and then perhaps one, are one line. -/
theorem byteLines_line (body : List UInt8) (b : UInt8) (h : lineFeed ∉ body) :
    byteLines (body ++ [b]) = [body ++ [b]] := by
  apply List.splitBy_of_isChain (List.append_ne_nil_of_right_ne_nil _ (List.cons_ne_nil _ _))
  have hbody : ∀ x ∈ body, (x != lineFeed) = true :=
    fun x hx => bne_iff_ne.2 fun heq => h (heq ▸ hx)
  apply List.Pairwise.isChain
  rw [List.pairwise_append]
  exact ⟨List.pairwise_of_forall_mem_list fun x hx _ _ => hbody x hx, List.pairwise_singleton _ _,
    fun x hx _ _ => hbody x hx⟩

/-- **The first line is split off** where the stream is cut first. -/
theorem byteLines_eq_cons (bytes : List UInt8) (hne : bytes ≠ []) :
    byteLines bytes = (splitLine bytes).1 :: byteLines (splitLine bytes).2 := by
  by_cases hmem : lineFeed ∈ bytes
  · obtain ⟨body, rest, rfl, hbody⟩ := List.eq_append_cons_of_mem hmem
    rw [splitLine_line body rest hbody, List.append_cons, byteLines, List.splitBy_append (by simp)]
    exact congrArg (· ++ byteLines rest) (byteLines_line body lineFeed hbody)
  · rw [splitLine_last bytes hmem]
    obtain ⟨body, b, rfl⟩ := (List.eq_nil_or_concat bytes).resolve_left hne
    rw [List.concat_eq_append] at hmem ⊢
    exact byteLines_line body b fun hbody => hmem (List.mem_append_left _ hbody)

/-! ## Terminator lines -/

/-- The byte of a semicolon. -/
def semicolon : UInt8 := 59

/-- A line of bytes is a terminator if its first semicolon is at once followed by another. -/
def IsTerminator (line : List UInt8) : Prop :=
  ∃ front back, line = front ++ semicolon :: semicolon :: back ∧ semicolon ∉ front

theorem semicolon_not_mem_encode (cs : List Char) (h : ';' ∉ cs) : semicolon ∉ Utf8.encode cs :=
  byte_not_mem_encode ';' (by decide) cs h

/-- Text that starts with the byte of a semicolon starts with a semicolon. -/
theorem head?_of_encode_eq_cons (cs : List Char) (rest : List UInt8)
    (h : Utf8.encode cs = semicolon :: rest) : cs.head? = some ';' := by
  cases cs with
  | nil => cases h
  | cons c cs =>
    have hne : String.utf8EncodeChar c ≠ [] := String.utf8EncodeChar_ne_nil
    obtain ⟨b, bs, hbytes⟩ := List.exists_cons_of_ne_nil hne
    rw [Utf8.encode, List.flatMap_cons, hbytes] at h
    obtain rfl := (List.cons.inj h).1
    have hmem : semicolon ∈ String.utf8EncodeChar c := hbytes ▸ List.mem_cons_self
    rw [List.head?_cons, eq_of_byte_mem ';' c (by decide) hmem]

/-- **A terminator line is seen from its bytes.** -/
theorem isTerminator_encode_iff (line : List Char) :
    IsTerminator (Utf8.encode line) ↔ endsInput line = true := by
  have hopening := semicolon_not_mem_encode _ (semicolon_not_mem_opening line)
  have hencode : ∀ back, Utf8.encode (opening line ++ ';' :: back) =
      Utf8.encode (opening line) ++ semicolon :: Utf8.encode back :=
    fun back => Utf8.encode_append (opening line) (';' :: back)
  obtain ⟨hends, back, hline⟩ | ⟨hends, hline | ⟨back, hline, hback⟩⟩ := opening_cases line
  · refine ⟨fun _ => hends, fun _ => ⟨Utf8.encode (opening line), Utf8.encode back, ?_, hopening⟩⟩
    nth_rewrite 1 [hline]
    exact hencode (';' :: back)
  · -- there is no semicolon on the line
    refine ⟨?_, fun h => by rw [hends] at h; cases h⟩
    rintro ⟨front, back, hbytes, -⟩
    rw [← hline, hbytes] at hopening
    exact absurd (List.mem_append_right front List.mem_cons_self) hopening
  · -- the first semicolon of the bytes is that of the line, and starts a comment
    refine ⟨?_, fun h => by rw [hends] at h; cases h⟩
    rintro ⟨front, rest, hbytes, hfront⟩
    rw [hline, hencode] at hbytes
    have hrest := congrArg (List.dropWhile (· != semicolon)) hbytes
    rw [(run_append_first _ _ _ hopening).2, (run_append_first _ _ _ hfront).2] at hrest
    exact absurd (head?_of_encode_eq_cons back rest (List.cons.inj hrest).2) hback

/-! ## The contents of a line -/

/-- The content of a line of bytes: its text without the newline, or the carriage return and the
newline, that ends it. -/
inductive IsContent : List UInt8 → List Char → Prop where
  | carriageReturn (cs : List Char) : IsContent (Utf8.encode (cs ++ ['\r', '\n'])) cs
  | newline (cs : List Char) (h : cs.getLast? ≠ some '\r') :
      IsContent (Utf8.encode (cs ++ ['\n'])) cs
  | unended (cs : List Char) (h : cs.getLast? ≠ some '\n') : IsContent (Utf8.encode cs) cs

/-- Every text has a content. -/
theorem exists_isContent (cs : List Char) : ∃ content, IsContent (Utf8.encode cs) content := by
  by_cases hnewline : cs.getLast? = some '\n'
  · obtain ⟨front, rfl⟩ := List.getLast?_eq_some_iff.1 hnewline
    by_cases hreturn : front.getLast? = some '\r'
    · obtain ⟨content, rfl⟩ := List.getLast?_eq_some_iff.1 hreturn
      rw [List.append_assoc]
      exact ⟨content, .carriageReturn content⟩
    · exact ⟨front, .newline front hreturn⟩
  · exact ⟨cs, .unended cs hnewline⟩

namespace IsContent

variable {line : List UInt8} {cs : List Char}

/-- A line is decoded as its content. -/
theorem decodeLine? (h : IsContent line cs) : decodeLine? line = some cs := by
  cases h with
  | carriageReturn cs =>
    rw [Session.decodeLine?, Utf8.decode?_encode, Option.map_some, List.append_cons,
      stripLineEnd_newline, dropReturn, if_pos List.getLast?_concat, List.dropLast_concat]
  | newline cs h =>
    rw [Session.decodeLine?, Utf8.decode?_encode, Option.map_some, stripLineEnd_newline, dropReturn,
      if_neg h]
  | unended cs h =>
    rw [Session.decodeLine?, Utf8.decode?_encode, Option.map_some, stripLineEnd_of_getLast? cs h]

theorem unique {ds : List Char} (h : IsContent line cs) (h' : IsContent line ds) : cs = ds :=
  Option.some.inj (h.decodeLine?.symm.trans h'.decodeLine?)

/-- A line is a terminator if its content is. -/
theorem isTerminator_iff (h : IsContent line cs) : IsTerminator line ↔ endsInput cs = true := by
  cases h with
  | carriageReturn cs =>
    rw [isTerminator_encode_iff, List.append_cons, endsInput_concat _ _ (by decide),
      endsInput_concat _ _ (by decide)]
  | newline cs h => rw [isTerminator_encode_iff, endsInput_concat _ _ (by decide)]
  | unended cs h => exact isTerminator_encode_iff cs

end IsContent

/-! ## Reading the first line -/

section FirstLine

variable (bytes line : List UInt8) (lines : List (List UInt8)) (h : byteLines bytes = line :: lines)
include h

theorem byteLines_behind : byteLines lines.flatten = lines :=
  byteLines_flatten lines bytes (h ▸ (List.suffix_cons line lines).isInfix)

/-- A stream that has lines is split where the first one ends. -/
theorem splitLine_of_byteLines : bytes ≠ [] ∧ splitLine bytes = (line, lines.flatten) := by
  have hne : bytes ≠ [] := by
    rintro rfl
    cases h
  rw [byteLines_eq_cons bytes hne] at h
  obtain ⟨hline, hlines⟩ := List.cons.inj h
  refine ⟨hne, Prod.ext hline ?_⟩
  rw [← hlines, flatten_byteLines]

/-- **Reading a valid line**: only a terminator line is the last. -/
theorem read?_of_isContent (content : List Char) (hcontent : IsContent line content) :
    read? bytes =
      if endsInput content then some (content ++ ['\n'], lines.flatten)
      else (read? lines.flatten).map fun r => (content ++ '\n' :: r.1, r.2) := by
  obtain ⟨hne, hsplit⟩ := splitLine_of_byteLines bytes line lines h
  rw [read?_of_decodeLine? bytes content hne (hsplit ▸ hcontent.decodeLine?), hsplit]

/-- **A line that is no text is refused.** -/
theorem read?_of_not_text (hbad : ∀ cs, line ≠ Utf8.encode cs) : read? bytes = none := by
  obtain ⟨hne, hsplit⟩ := splitLine_of_byteLines bytes line lines h
  have hdecode : decodeLine? (splitLine bytes).1 = none := by
    cases hline : Utf8.decode? line with
    | none => rw [hsplit, decodeLine?, hline, Option.map_none]
    | some cs => exact absurd ((Utf8.decode?_eq_some_iff line cs).1 hline) (hbad cs)
  cases bytes with
  | nil => exact absurd rfl hne
  | cons b tail => rw [read?, hdecode]

end FirstLine

/-! ## The lines that a session takes -/

/-- `Takes lines taken rest`: a session whose stream has the given lines takes those up to the first
terminator line, all if there is none, and leaves the rest. -/
inductive Takes : List (List UInt8) → List (List UInt8) → List (List UInt8) → Prop where
  | all : Takes [] [] []
  | last (line : List UInt8) (rest : List (List UInt8)) (h : IsTerminator line) :
      Takes (line :: rest) [line] rest
  | more (line : List UInt8) (lines taken rest : List (List UInt8)) (h : ¬ IsTerminator line)
      (hmore : Takes lines taken rest) : Takes (line :: lines) (line :: taken) rest

/-- Some lines are taken from every stream. -/
theorem exists_takes (lines : List (List UInt8)) : ∃ taken rest, Takes lines taken rest := by
  induction lines with
  | nil => exact ⟨[], [], .all⟩
  | cons line lines ih =>
    by_cases h : IsTerminator line
    · exact ⟨[line], lines, .last line lines h⟩
    · obtain ⟨taken, rest, htakes⟩ := ih
      exact ⟨line :: taken, rest, .more line lines taken rest h htakes⟩

/-- Lines the last of which is a terminator. -/
def Terminated (lines : List (List UInt8)) : Prop := ∃ line ∈ lines.getLast?, IsTerminator line

theorem not_terminated_nil : ¬ Terminated [] := by
  rintro ⟨_, hmem, -⟩
  cases hmem

/-- Behind a line that is no terminator, the other lines decide. -/
theorem terminated_cons_iff (line : List UInt8) (lines : List (List UInt8))
    (h : ¬ IsTerminator line) :
    Terminated (line :: lines) ↔ Terminated lines := by
  cases lines with
  | nil => simp [Terminated, h]
  | cons next lines => rw [Terminated, Terminated, List.getLast?_cons_cons]

namespace Takes

variable {lines taken rest : List (List UInt8)}

theorem append (h : Takes lines taken rest) : taken ++ rest = lines := by
  induction h with
  | all => rfl
  | last line rest h => rfl
  | more line lines taken rest h hmore ih => rw [List.cons_append, ih]

/-- **As few lines as end with a terminator** are taken, or all lines if no line is one. -/
theorem least_or_all (h : Takes lines taken rest) :
    (Terminated taken ∧ ∀ front, front <+: lines → Terminated front → taken <+: front) ∨
      (rest = [] ∧ ∀ front, front <+: lines → ¬ Terminated front) := by
  induction h with
  | all =>
    refine .inr ⟨rfl, fun front hfront => ?_⟩
    rw [List.prefix_nil.1 hfront]
    exact not_terminated_nil
  | last line rest h =>
    refine .inl ⟨⟨line, rfl, h⟩, fun front hfront hterm => ?_⟩
    obtain rfl | ⟨front, rfl, -⟩ := List.prefix_cons_iff.1 hfront
    · exact absurd hterm not_terminated_nil
    · exact ⟨front, rfl⟩
  | more line lines taken rest h hmore ih =>
    obtain ⟨hterm, hleast⟩ | ⟨hrest, hnone⟩ := ih
    · refine .inl ⟨(terminated_cons_iff line taken h).2 hterm, fun front hfront hfterm => ?_⟩
      obtain rfl | ⟨front, rfl, hothers⟩ := List.prefix_cons_iff.1 hfront
      · exact absurd hfterm not_terminated_nil
      · have hleft := hleast front hothers ((terminated_cons_iff line front h).1 hfterm)
        exact List.cons_prefix_cons.2 ⟨rfl, hleft⟩
    · refine .inr ⟨hrest, fun front hfront hfterm => ?_⟩
      obtain rfl | ⟨front, rfl, hothers⟩ := List.prefix_cons_iff.1 hfront
      · exact not_terminated_nil hfterm
      · exact hnone front hothers ((terminated_cons_iff line front h).1 hfterm)

/-- Behind a terminator line any lines may follow. -/
theorem frame (h : Takes lines taken rest) (hterm : Terminated taken) (others : List (List UInt8)) :
    Takes (taken ++ others) taken others := by
  induction h with
  | all => exact absurd hterm not_terminated_nil
  | last line rest h => exact .last line others h
  | more line lines taken rest h hmore ih =>
    exact .more line _ taken others h (ih ((terminated_cons_iff line taken h).1 hterm))

/-- **Valid lines are read** as their contents, each followed by a newline. -/
theorem read?_of_contents (h : Takes lines taken rest) (contents : List (List Char))
    (hcontents : List.Forall₂ IsContent taken contents) (bytes : List UInt8)
    (hbytes : byteLines bytes = lines) :
    read? bytes = some (contents.flatMap (· ++ ['\n']), rest.flatten) := by
  induction h generalizing contents bytes with
  | all =>
    obtain rfl := List.splitBy_eq_nil.1 hbytes
    cases hcontents
    rw [read?]
    rfl
  | last line rest h =>
    obtain ⟨content, contents, hcontent, hnil, rfl⟩ := List.forall₂_cons_left_iff.1 hcontents
    cases hnil
    rw [read?_of_isContent bytes line rest hbytes content hcontent,
      if_pos (hcontent.isTerminator_iff.1 h), List.flatMap_singleton]
  | more line lines taken rest h hmore ih =>
    obtain ⟨content, contents, hcontent, hothers, rfl⟩ := List.forall₂_cons_left_iff.1 hcontents
    rw [read?_of_isContent bytes line lines hbytes content hcontent,
      if_neg fun hends => h (hcontent.isTerminator_iff.2 hends),
      ih contents hothers _ (byteLines_behind bytes line lines hbytes), Option.map_some,
      List.flatMap_cons, List.append_assoc]
    rfl

/-- **A line that is no text is refused**, if it is taken. -/
theorem read?_eq_none (h : Takes lines taken rest) (bad : List UInt8) (hmem : bad ∈ taken)
    (hbad : ∀ cs, bad ≠ Utf8.encode cs) (bytes : List UInt8) (hbytes : byteLines bytes = lines) :
    read? bytes = none := by
  induction h generalizing bytes with
  | all => cases hmem
  | last line rest h =>
    obtain rfl := List.mem_singleton.1 hmem
    exact read?_of_not_text bytes bad rest hbytes hbad
  | more line lines taken rest h hmore ih =>
    by_cases htext : ∃ cs, line = Utf8.encode cs
    · -- the line is read, so the bad one comes later
      obtain ⟨cs, rfl⟩ := htext
      obtain ⟨content, hcontent⟩ := exists_isContent cs
      have hlater : bad ∈ taken := (List.mem_cons.1 hmem).resolve_left (hbad cs)
      rw [read?_of_isContent bytes _ lines hbytes content hcontent,
        if_neg fun hends => h (hcontent.isTerminator_iff.2 hends),
        ih hlater _ (byteLines_behind bytes _ lines hbytes), Option.map_none]
    · exact read?_of_not_text bytes line lines hbytes fun cs hcs => htext ⟨cs, hcs⟩

end Takes

/-! ## What a session consumes -/

/-- A part of a stream made of its first lines, the last of which is a terminator. -/
def EndsTerminated (bytes front : List UInt8) : Prop :=
  ∃ lines, lines <+: byteLines bytes ∧ lines.flatten = front ∧ Terminated lines

/-- What a session consumes of a stream: the shortest part that ends with a terminator line, or the
whole stream if there is no such line. -/
def Consumes (bytes consumed : List UInt8) : Prop :=
  (EndsTerminated bytes consumed ∧
      ∀ front, EndsTerminated bytes front → consumed.length ≤ front.length) ∨
    (consumed = bytes ∧ ∀ front, ¬ EndsTerminated bytes front)

/-- The lines that a session takes are what it consumes. -/
theorem Takes.consumes {bytes : List UInt8} {taken rest : List (List UInt8)}
    (h : Takes (byteLines bytes) taken rest) : Consumes bytes taken.flatten := by
  obtain ⟨hterm, hleast⟩ | ⟨rfl, hnone⟩ := h.least_or_all
  · refine .inl ⟨⟨taken, ⟨rest, h.append⟩, rfl, hterm⟩, ?_⟩
    rintro _ ⟨lines, hlines, rfl, hlast⟩
    exact (hleast lines hlines hlast).flatten.length_le
  · have happend := h.append
    rw [List.append_nil] at happend
    refine .inr ⟨by rw [happend, flatten_byteLines], ?_⟩
    rintro _ ⟨lines, hlines, -, hlast⟩
    exact hnone lines hlines hlast

/-- Only one part of a stream is consumed. -/
theorem Consumes.unique {bytes consumed other : List UInt8} (h : Consumes bytes consumed)
    (h' : Consumes bytes other) : consumed = other := by
  have hpart : ∀ {front}, EndsTerminated bytes front → front <+: bytes := by
    rintro _ ⟨lines, hlines, rfl, -⟩
    exact flatten_byteLines bytes ▸ hlines.flatten
  obtain ⟨hends, hleast⟩ | ⟨rfl, hnone⟩ := h <;> obtain ⟨hends', hleast'⟩ | ⟨rfl, hnone'⟩ := h'
  · have hfront : consumed <+: other :=
      List.prefix_of_prefix_length_le (hpart hends) (hpart hends') (hleast _ hends')
    exact hfront.eq_of_length_le (hleast' _ hends)
  · exact absurd hends (hnone' _)
  · exact absurd hends' (hnone _)
  · rfl

/-- What a session consumes is made of the lines it takes. -/
theorem Consumes.exists_takes {bytes consumed : List UInt8} (h : Consumes bytes consumed) :
    ∃ rest, Takes (byteLines bytes) (byteLines consumed) rest ∧
      bytes = consumed ++ rest.flatten := by
  obtain ⟨taken, rest, htakes⟩ := Session.exists_takes (byteLines bytes)
  obtain rfl := htakes.consumes.unique h
  have htaken : byteLines taken.flatten = taken :=
    byteLines_flatten taken bytes ⟨[], rest, by rw [List.nil_append, htakes.append]⟩
  refine ⟨rest, htaken.symm ▸ htakes, ?_⟩
  rw [← List.flatten_append, htakes.append, flatten_byteLines]

/-- Valid lines have contents. -/
theorem exists_contents (lines : List (List UInt8))
    (h : ∀ line ∈ lines, ∃ cs, line = Utf8.encode cs) :
    ∃ contents, List.Forall₂ IsContent lines contents := by
  induction lines with
  | nil => exact ⟨[], .nil⟩
  | cons line lines ih =>
    obtain ⟨cs, rfl⟩ := h line List.mem_cons_self
    obtain ⟨content, hcontent⟩ := exists_isContent cs
    obtain ⟨contents, hcontents⟩ := ih fun line hline => h line (List.mem_cons_of_mem _ hline)
    exact ⟨content :: contents, .cons hcontent hcontents⟩

/-- **Reading depends on what is consumed only**: two streams of which the same part is consumed are
read alike. -/
theorem read?_congr {bytes consumed other : List UInt8} (h : Consumes bytes consumed)
    (h' : Consumes (consumed ++ other) consumed) :
    read? (consumed ++ other) = (read? bytes).map fun r => (r.1, other) := by
  obtain ⟨rest, htakes, -⟩ := h.exists_takes
  obtain ⟨rest', htakes', hother⟩ := h'.exists_takes
  obtain rfl := List.append_cancel_left hother
  by_cases hvalid : ∀ line ∈ byteLines consumed, ∃ cs, line = Utf8.encode cs
  · obtain ⟨contents, hcontents⟩ := exists_contents _ hvalid
    rw [htakes.read?_of_contents contents hcontents bytes rfl,
      htakes'.read?_of_contents contents hcontents _ rfl, Option.map_some]
  · push Not at hvalid
    obtain ⟨bad, hmem, hbad⟩ := hvalid
    rw [htakes.read?_eq_none bad hmem hbad bytes rfl, htakes'.read?_eq_none bad hmem hbad _ rfl,
      Option.map_none]

theorem EndsTerminated.terminated {bytes front : List UInt8} (h : EndsTerminated bytes front) :
    Terminated (byteLines front) := by
  obtain ⟨lines, hlines, rfl, hterm⟩ := h
  rwa [byteLines_flatten lines bytes hlines.isInfix]

/-- **Bytes are left only behind the line feed of a terminator line.** -/
theorem Consumes.ends_of_unread {bytes consumed unread : List UInt8} (h : Consumes bytes consumed)
    (hbytes : bytes = consumed ++ unread) (hunread : unread ≠ []) :
    EndsTerminated bytes consumed ∧ consumed.getLast? = some lineFeed := by
  obtain ⟨rest, htakes, hrest⟩ := h.exists_takes
  obtain rfl := List.append_cancel_left (hbytes.symm.trans hrest)
  have hends : EndsTerminated bytes consumed := by
    obtain ⟨hends, -⟩ | ⟨rfl, -⟩ := h
    · exact hends
    · exact absurd (List.self_eq_append_right.1 hbytes) hunread
  obtain ⟨line, rest, rfl⟩ : ∃ line lines, rest = line :: lines := by
    refine List.exists_cons_of_ne_nil ?_
    rintro rfl
    exact hunread rfl
  have hne : consumed ≠ [] := by
    rintro rfl
    exact not_terminated_nil hends.terminated
  -- the stream is cut between the consumed lines and the next, so a line feed stands there
  have hchain := List.isChain_getLast_head_splitBy (fun b _ => b != lineFeed) bytes
  rw [show bytes.splitBy _ = _ from htakes.append.symm, List.isChain_append] at hchain
  obtain ⟨_, _, hlast⟩ :=
    hchain.2.2 _ (List.getLast_mem_getLast? (List.splitBy_ne_nil.2 hne)) line rfl
  rw [List.getLast_getLast_splitBy] at hlast
  refine ⟨hends, ?_⟩
  rw [List.getLast?_eq_some_getLast hne]
  exact congrArg some (by simpa using hlast)

/-- **What follows the line feed of a terminator line may be anything.** -/
theorem Consumes.append {bytes consumed : List UInt8} (h : Consumes bytes consumed)
    (hends : EndsTerminated bytes consumed) (hlast : consumed.getLast? = some lineFeed)
    (other : List UInt8) : Consumes (consumed ++ other) consumed := by
  obtain ⟨rest, htakes, -⟩ := h.exists_takes
  have hlines : byteLines (consumed ++ other) = byteLines consumed ++ byteLines other :=
    List.splitBy_append fun b hb _ _ => by
      obtain rfl := Option.some.inj (hlast.symm.trans hb)
      rfl
  have hconsumes := (hlines ▸ htakes.frame hends.terminated (byteLines other)).consumes
  rwa [flatten_byteLines] at hconsumes

/-! ## The text behind the first semicolon -/

/-- A line is cut behind its first semicolon between two characters. -/
theorem cut_behind_semicolon (line : List Char) (h : ';' ∈ line) :
    String.Pos.Raw.IsValid (String.ofList line) ⟨(Utf8.encode line).idxOf semicolon + 1⟩ ∧
      ∃ back, (Utf8.encode line).drop ((Utf8.encode line).idxOf semicolon + 1) = Utf8.encode back ∧
        (endsInput line = true ↔ back.head? = some ';') := by
  obtain ⟨back, hline, hends⟩ : ∃ back, line = opening line ++ ';' :: back ∧
      (endsInput line = true ↔ back.head? = some ';') := by
    obtain ⟨hends, back, hline⟩ | ⟨hends, hline | ⟨back, hline, hback⟩⟩ := opening_cases line
    · exact ⟨';' :: back, hline, by simp [hends]⟩
    · exact absurd (hline ▸ h) (semicolon_not_mem_opening line)
    · exact ⟨back, hline, by simp [hends, hback]⟩
  have hencode : Utf8.encode line =
      Utf8.encode (opening line) ++ semicolon :: Utf8.encode back := by
    nth_rewrite 1 [hline]
    exact Utf8.encode_append (opening line) (';' :: back)
  have hopening := semicolon_not_mem_encode _ (semicolon_not_mem_opening line)
  have hindex : (Utf8.encode line).idxOf semicolon = (Utf8.encode (opening line)).length := by
    rw [hencode, List.idxOf_append_of_notMem hopening, List.idxOf_cons_self, Nat.add_zero]
  refine ⟨?_, back, ?_, hends⟩
  · rw [hindex, String.Pos.Raw.isValid_ofList]
    refine ⟨(opening line).length + 1, ?_⟩
    have htake : line.take ((opening line).length + 1) = opening line ++ [';'] := by
      nth_rewrite 2 [hline]
      rw [List.take_length_add_append]
      rfl
    rw [htake, ← String.size_toByteArray, String.toByteArray_ofList, List.utf8Encode,
      List.size_toByteArray, ← Utf8.encode, Utf8.encode_append, List.length_append]
    rfl
  · rw [hindex, hencode, List.drop_length_add_append]
    rfl

/-! ## Reading through the terminator -/

/-- **A session is read exactly through its terminator line.** Every stream has a part to consume.
If each line of this part is valid, the text is made of the contents of these lines, each followed
by a newline, and exactly the bytes behind the part are left; if a line of it is not valid, there is
no text. Bytes are left only behind the line feed of a terminator line, and there they do not
matter: with any others in their place the same part is consumed, with the same result. And a line
is always cut behind its first semicolon, wherever its bytes have it, between two characters. -/
theorem consumes_through_terminator (bytes : List UInt8) :
    (∃ consumed, Consumes bytes consumed) ∧
      (∀ consumed, Consumes bytes consumed → ∃ unread, bytes = consumed ++ unread ∧
        ((∀ line ∈ byteLines consumed, ∃ cs, line = Utf8.encode cs) →
          ∃ contents, List.Forall₂ IsContent (byteLines consumed) contents ∧
            read? bytes = some (contents.flatMap (· ++ ['\n']), unread)) ∧
        ((∃ line ∈ byteLines consumed, ∀ cs, line ≠ Utf8.encode cs) → read? bytes = none) ∧
        (unread ≠ [] → EndsTerminated bytes consumed ∧ consumed.getLast? = some lineFeed) ∧
        (EndsTerminated bytes consumed → consumed.getLast? = some lineFeed → ∀ other,
          Consumes (consumed ++ other) consumed ∧
            read? (consumed ++ other) = (read? bytes).map fun r => (r.1, other))) ∧
      ∀ line : List Char, ';' ∈ line →
        String.Pos.Raw.IsValid (String.ofList line) ⟨(Utf8.encode line).idxOf semicolon + 1⟩ ∧
          ∃ back,
            (Utf8.encode line).drop ((Utf8.encode line).idxOf semicolon + 1) = Utf8.encode back ∧
              (endsInput line = true ↔ back.head? = some ';') := by
  refine ⟨?_, ?_, cut_behind_semicolon⟩
  · obtain ⟨taken, rest, htakes⟩ := exists_takes (byteLines bytes)
    exact ⟨taken.flatten, htakes.consumes⟩
  · intro consumed h
    obtain ⟨rest, htakes, hbytes⟩ := h.exists_takes
    refine ⟨rest.flatten, hbytes, ?_, ?_, h.ends_of_unread hbytes, ?_⟩
    · intro hvalid
      obtain ⟨contents, hcontents⟩ := exists_contents _ hvalid
      exact ⟨contents, hcontents, htakes.read?_of_contents contents hcontents bytes rfl⟩
    · rintro ⟨bad, hmem, hbad⟩
      exact htakes.read?_eq_none bad hmem hbad bytes rfl
    · intro hends hlast other
      have hother := h.append hends hlast other
      exact ⟨hother, read?_congr h hother⟩

/-- A comment behind a character of two bytes, ended by a carriage return and a newline, and then a
terminator line; the bytes behind it are no text. -/
theorem consumes_through_terminator_comment :
    ∃ first last consumed, first = Utf8.encode ['é', ';', 'x', '\r', '\n'] ∧
      last = Utf8.encode [';', ';', '\n'] ∧ consumed = first ++ last ∧
      Consumes (consumed ++ [255, lineFeed]) consumed ∧
      read? (consumed ++ [255, lineFeed]) =
        some (['é', ';', 'x', '\n', ';', ';', '\n'], [255, lineFeed]) := by
  let first := Utf8.encode ['é', ';', 'x', '\r', '\n']
  let last := Utf8.encode [';', ';', '\n']
  have hlines : byteLines (first ++ last ++ [255, lineFeed]) = [first, last, [255, lineFeed]] := by
    decide
  have hconsumed : byteLines (first ++ last) = [first, last] := by decide
  have htakes : Takes [first, last, [255, lineFeed]] [first, last] [[255, lineFeed]] :=
    .more _ _ _ _ (fun h => absurd ((isTerminator_encode_iff _).1 h) (by decide))
      (.last _ _ ((isTerminator_encode_iff _).2 rfl))
  have hconsumes : Consumes (first ++ last ++ [255, lineFeed]) (first ++ last) :=
    (hlines ▸ htakes).consumes
  obtain ⟨unread, hunread, hvalid, -⟩ := (consumes_through_terminator _).2.1 _ hconsumes
  rw [hconsumed] at hvalid
  obtain ⟨contents, hcontents, hread⟩ := hvalid (by simp [first, last])
  cases hcontents with
  | cons hfirst hothers =>
    cases hothers with
    | cons hlast hnil =>
      cases hnil
      obtain rfl := hfirst.unique (.carriageReturn ['é', ';', 'x'])
      obtain rfl := hlast.unique (.newline [';', ';'] (by decide))
      rw [← List.append_cancel_left hunread] at hread
      exact ⟨first, last, _, rfl, rfl, rfl, hconsumes, hread⟩

end Session

end NumStack
