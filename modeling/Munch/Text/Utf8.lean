namespace Munch.Text

/-- What bytes spell in UTF-8, from byte `i` on. A byte that belongs to no symbol is `none`. -/
def decodeFrom (bytes : ByteArray) (i : Nat) : List (Option Char) :=
  if i < bytes.size then
    match bytes.utf8DecodeChar? i with
    | some c => some c :: decodeFrom bytes (i + c.utf8Size)
    | none => none :: decodeFrom bytes (i + 1)
  else []
termination_by bytes.size - i
decreasing_by
  · have := c.utf8Size_pos
    omega
  · omega

def decode (bytes : ByteArray) : List (Option Char) := decodeFrom bytes 0

end Munch.Text
