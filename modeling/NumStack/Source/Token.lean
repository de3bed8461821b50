import NumStack.Program
import NumStack.Source.Fault
import NumStack.Text

/-!
# Tokens

The words of the assembly language, each with its text and its position. A lexeme is the text of one
token, cut off the front of a source text that starts with something other than blanks. Cutting
loses nothing: the lexeme and the rest make up the text again, and the rest is shorter.

Blanks and comments are dropped, every other lexeme becomes a token, and the last token is the only
end marker. A character that starts no token is a fault, and so is an interactive session that ends
without `;;`.
-/

namespace NumStack

/-! ## Words -/

/-- The kind of a token. -/
inductive TokenKind where
  | opcode (o : Opcode)
  | type (k : Kind)
  | integer
  | decimal
  | leftParen
  | rightParen
  | newline
  | comment
  | endOfFile
  | endOfInput
  | unknown
  | invalid
  deriving DecidableEq, Repr

/-- A token of the assembly language. -/
structure Token where
  kind : TokenKind
  text : String
  position : Position
  deriving DecidableEq, Repr

namespace Token

/-- Whether the token ends the source: the end of a file, or the `;;` of an interactive session. -/
def isEnd (t : Token) : Bool := t.kind = .endOfFile || t.kind = .endOfInput

/-- Whether the token ends a line of several. -/
def isNewline (t : Token) : Bool := t.kind = .newline

/-- Whether the token belongs to the contents of a line. -/
def inLine (t : Token) : Bool := !t.isNewline && !t.isEnd

/-- Whether the token is a number. -/
def isNumber (t : Token) : Bool := t.kind = .integer || t.kind = .decimal

/-- The token as a message shows it. -/
def describe (t : Token) : String :=
  match t.kind with
  | .newline => "end of line"
  | .endOfFile => "end of file"
  | _ => t.text

/-- The end that stands for a missing end marker. -/
def missingEnd : Token := ⟨.endOfFile, "", ⟨0, 0⟩⟩

end Token

/-- The kind of a word: an opcode, a kind of number, or neither. -/
def TokenKind.ofWord (word : String) : TokenKind :=
  match Opcode.ofMnemonic? word with
  | some o => .opcode o
  | none =>
    match Kind.ofName? word with
    | some k => .type k
    | none => .unknown

/-! ## Lexemes -/

/-- The kind and the text of the token at the front of a source text, and the text behind it. -/
structure Lexeme where
  kind : TokenKind
  text : List Char
  rest : List Char
  deriving DecidableEq, Repr

namespace Lexeme

/-- The longest run of characters of one class at the front. -/
def run (kind : List Char → TokenKind) (inRun : Char → Bool) (cs : List Char) : Lexeme :=
  ⟨kind (cs.takeWhile inRun), cs.takeWhile inRun, cs.dropWhile inRun⟩

/-- Everything up to the end of the line. -/
def toLineEnd (kind : TokenKind) (cs : List Char) : Lexeme := run (fun _ => kind) (· != '\n') cs

/-- A number behind its sign: digits, and a point with the digits behind it if there are any. -/
def numeral (sign cs : List Char) : Lexeme :=
  let whole := cs.takeWhile Char.isDigit
  match cs.dropWhile Char.isDigit with
  | '.' :: d :: more =>
    if d.isDigit then
      ⟨.decimal, sign ++ whole ++ '.' :: (d :: more).takeWhile Char.isDigit,
        (d :: more).dropWhile Char.isDigit⟩
    else ⟨.integer, sign ++ whole, '.' :: d :: more⟩
  | rest => ⟨.integer, sign ++ whole, rest⟩

/-- The lexeme at the front of the text `c :: cs`. Two semicolons end an interactive session;
otherwise a semicolon starts a comment. A character that starts no token takes the rest of its line
with it. -/
def cut (interactive : Bool) (c : Char) (cs : List Char) : Lexeme :=
  if c = ';' then
    if interactive && cs.head? = some ';' then ⟨.endOfInput, [';', ';'], cs.tail⟩
    else toLineEnd .comment (c :: cs)
  else if c = '\n' then ⟨.newline, [c], cs⟩
  else if c = '(' then ⟨.leftParen, [c], cs⟩
  else if c = ')' then ⟨.rightParen, [c], cs⟩
  else if (c = '+' || c = '-') && cs.head?.any Char.isDigit then numeral [c] cs
  else if c.isDigit then numeral [] (c :: cs)
  else if c.isAlpha then run (fun word => .ofWord (String.ofList word)) Char.isAlphanum (c :: cs)
  else toLineEnd .invalid (c :: cs)

/-! ## Nothing is lost -/

theorem run_append (kind : List Char → TokenKind) (inRun : Char → Bool) (cs : List Char) :
    (run kind inRun cs).text ++ (run kind inRun cs).rest = cs :=
  List.takeWhile_append_dropWhile

theorem run_text_ne_nil (kind : List Char → TokenKind) (inRun : Char → Bool) (c : Char)
    (cs : List Char) (h : inRun c = true) : (run kind inRun (c :: cs)).text ≠ [] := by
  simp [run, h]

/-- A numeral and the rest make up the text. -/
theorem numeral_append (sign cs : List Char) :
    (numeral sign cs).text ++ (numeral sign cs).rest = sign ++ cs := by
  have hcs : cs.takeWhile Char.isDigit ++ cs.dropWhile Char.isDigit = cs :=
    List.takeWhile_append_dropWhile
  unfold numeral
  split
  · rename_i d more heq
    split
    · have hmore : (d :: more).takeWhile Char.isDigit ++ (d :: more).dropWhile Char.isDigit =
          d :: more := List.takeWhile_append_dropWhile
      simp only [List.append_assoc, List.cons_append, hmore]
      rw [← heq, hcs]
    · simp only [List.append_assoc]
      rw [← heq, hcs]
  · simp only [List.append_assoc, hcs]

/-- The lexeme and the rest make up the text. -/
theorem cut_append (interactive : Bool) (c : Char) (cs : List Char) :
    (cut interactive c cs).text ++ (cut interactive c cs).rest = c :: cs := by
  unfold cut
  repeat' split
  · rename_i hc h
    obtain ⟨_, h⟩ := by simpa using h
    cases cs with
    | nil => simp at h
    | cons d ds => simp at h; simp [hc, h]
  · exact run_append _ _ _
  · rfl
  · rfl
  · rfl
  · exact numeral_append [c] cs
  · exact numeral_append [] (c :: cs)
  · exact run_append _ _ _
  · exact run_append _ _ _

/-- Cutting takes at least one character. -/
theorem cut_text_ne_nil (interactive : Bool) (c : Char) (cs : List Char) :
    (cut interactive c cs).text ≠ [] := by
  unfold cut
  repeat' split
  · simp
  · rename_i hc _
    exact run_text_ne_nil _ _ _ _ (by simp [hc])
  · simp
  · simp
  · simp
  · unfold numeral
    repeat' split
    all_goals simp
  · rename_i h
    unfold numeral
    repeat' split
    all_goals simp [h]
  · rename_i h
    exact run_text_ne_nil _ _ _ _ (by simp [Char.isAlphanum, h])
  · rename_i hn _ _ _ _ _
    exact run_text_ne_nil _ _ _ _ (by simpa using hn)

/-- The rest is shorter than the text. -/
theorem cut_rest_length_le (interactive : Bool) (c : Char) (cs : List Char) :
    (cut interactive c cs).rest.length ≤ cs.length := by
  have happ := congrArg List.length (cut_append interactive c cs)
  have hne := List.length_pos_iff.2 (cut_text_ne_nil interactive c cs)
  simp only [List.length_append, List.length_cons] at happ
  omega

end Lexeme

/-! ## The tokens of a source text -/

namespace Token

/-- The faults of reaching the end of the text: an interactive session should have ended before. -/
def endReport (interactive : Bool) (pos : Position) (report : Report) : Except SourceFault Report :=
  if interactive then report.add (.missingTerminator pos.line) else .ok report

/-- The faults of a lexeme: an invalid one is reported by its first character. -/
def lexemeReport (kind : TokenKind) (pos : Position) (c : Char) (report : Report) :
    Except SourceFault Report :=
  if kind = .invalid then report.add (.unexpectedCharacter pos c) else .ok report

/-- The tokens of the text `cs`, which starts at the position `pos`. -/
def scan (interactive : Bool) (cs : List Char) (pos : Position) (report : Report) :
    Except SourceFault (List Token × Report) :=
  let here := pos.after (cs.takeWhile isBlank)
  match _h : cs.dropWhile isBlank with
  | [] => do
    let report ← endReport interactive here report
    return ([⟨.endOfFile, "", here⟩], report)
  | c :: tail =>
    let lexeme := Lexeme.cut interactive c tail
    if lexeme.kind = .endOfInput then
      .ok ([⟨.endOfInput, String.ofList lexeme.text, here⟩], report)
    else do
      let report ← lexemeReport lexeme.kind here c report
      let (tokens, report) ← scan interactive lexeme.rest (here.after lexeme.text) report
      if lexeme.kind = .comment then return (tokens, report)
      else return (⟨lexeme.kind, String.ofList lexeme.text, here⟩ :: tokens, report)
termination_by cs.length
decreasing_by
  have hrest := Lexeme.cut_rest_length_le interactive c tail
  have hdrop := (List.dropWhile_suffix isBlank (l := cs)).length_le
  rw [_h, List.length_cons] at hdrop
  omega

/-- The tokens of a whole source text. -/
def tokenize (interactive : Bool) (text : String) (report : Report) :
    Except SourceFault (List Token × Report) :=
  scan interactive text.toList .start report

end Token

end NumStack
