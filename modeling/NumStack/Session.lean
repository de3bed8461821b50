import NumStack.Text

/-!
# Interactive sessions

A session is read line by line up to and including its terminator line, the first line whose first
semicolon is at once followed by another. What comes after that line stays unread, and each line
read is ended by one newline.
-/

namespace NumStack

namespace Session

/-! ## Lines of a byte stream -/

/-- The byte that ends a line. -/
def lineFeed : UInt8 := 10

/-- The first line of a byte stream, with the line feed that ends it if there is one, and the bytes
behind it. -/
def splitLine (bytes : List UInt8) : List UInt8 × List UInt8 :=
  match bytes.dropWhile (· != lineFeed) with
  | [] => (bytes, [])
  | b :: rest => (bytes.takeWhile (· != lineFeed) ++ [b], rest)

/-- A line without its line end: a newline, or a carriage return and a newline. -/
def stripLineEnd (cs : List Char) : List Char :=
  match cs.reverse with
  | '\n' :: '\r' :: rest => rest.reverse
  | '\n' :: rest => rest.reverse
  | _ => cs

/-- Decodes one line. -/
def decodeLine? (bytes : List UInt8) : Option (List Char) := (Utf8.decode? bytes).map stripLineEnd

/-- Whether a line is a terminator: its first semicolon is followed by another. -/
def endsInput (line : List Char) : Bool :=
  match line.dropWhile (· != ';') with
  | _ :: c :: _ => c == ';'
  | _ => false

/-- The rest behind the first line of a non-empty stream is shorter. -/
theorem splitLine_rest_length_lt (b : UInt8) (bytes : List UInt8) :
    (splitLine (b :: bytes)).2.length < (b :: bytes).length := by
  have hdrop := (List.dropWhile_suffix (· != lineFeed) (l := b :: bytes)).length_le
  unfold splitLine
  split
  · simp
  · rename_i c rest heq
    rw [heq, List.length_cons] at hdrop
    simp only
    omega

/-! ## Reading a session -/

/-- The text of a session and the bytes left unread, `none` if a line that was read is not valid. -/
def read? (bytes : List UInt8) : Option (List Char × List UInt8) :=
  match bytes with
  | [] => some ([], [])
  | b :: tail =>
    match decodeLine? (splitLine (b :: tail)).1 with
    | none => none
    | some line =>
      if endsInput line then some (line ++ ['\n'], (splitLine (b :: tail)).2)
      else
        (read? (splitLine (b :: tail)).2).map fun (text, unread) => (line ++ '\n' :: text, unread)
termination_by bytes.length
decreasing_by exact splitLine_rest_length_lt b tail

end Session

end NumStack
