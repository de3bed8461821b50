/-!
# Text

Text is a list of characters. Its UTF-8 encoding is a list of bytes. A list of bytes is valid if it
encodes some text, and then it encodes exactly one. White space is what has the Unicode property
`White_Space`.
-/

namespace NumStack

/-! ## Bytes -/

namespace Utf8

/-- The bytes of a text. -/
def encode (cs : List Char) : List UInt8 := cs.flatMap String.utf8EncodeChar

/-- The text of valid bytes. -/
def decode? (bytes : List UInt8) : Option (List Char) :=
  (String.fromUTF8? bytes.toByteArray).map String.toList

theorem encode_append (cs ds : List Char) : encode (cs ++ ds) = encode cs ++ encode ds :=
  List.flatMap_append

/-- Decoding undoes encoding. -/
theorem decode?_encode (cs : List Char) : decode? (encode cs) = some cs := by
  have h : (encode cs).toByteArray.IsValidUTF8 := ⟨cs, rfl⟩
  unfold decode? String.fromUTF8?
  rw [dif_pos h, Option.map_some]
  exact congrArg some (String.toList_ofList (l := cs))

end Utf8

/-! ## White space -/

/-- The ranges of code points that are white space, both ends included, in ascending order. -/
def whiteSpaceRanges : List (Nat × Nat) :=
  [(0x0009, 0x000D), (0x0020, 0x0020), (0x0085, 0x0085), (0x00A0, 0x00A0), (0x1680, 0x1680),
    (0x2000, 0x200A), (0x2028, 0x2029), (0x202F, 0x202F), (0x205F, 0x205F), (0x3000, 0x3000)]

/-- Whether a character is white space. -/
def isWhiteSpace (c : Char) : Bool :=
  whiteSpaceRanges.any fun r => r.1 ≤ c.toNat && c.toNat ≤ r.2

/-- Whether a character is white space inside a line, that is, other than a newline. -/
def isBlank (c : Char) : Bool := isWhiteSpace c && c != '\n'

theorem isBlank_newline : isBlank '\n' = false := by decide

end NumStack
