/-! Text of raw bytes. -/
namespace PhpLint.Text

/-- Length of the longest valid beginning, from a position inside it. -/
def validLength (bytes : ByteArray) (start : Nat) : Nat :=
  if start < bytes.size then
    match bytes.utf8DecodeChar? start with
    | some c => validLength bytes (start + c.utf8Size)
    | none => start
  else start
termination_by bytes.size - start
decreasing_by
  have := c.utf8Size_pos
  omega

/-- The text that the bytes spell, or the length of their longest valid beginning. -/
def decode (bytes : ByteArray) : Except Nat String :=
  match String.fromUTF8? bytes with
  | some s => .ok s
  | none => .error (validLength bytes 0)

end PhpLint.Text
