/-!
# Documents as bytes

Between quotes a document may hold bytes that belong to no character, as long as nobody asks for the
text that is spelled there. Such a byte is therefore read as the escape of a lone surrogate: it may
stand in a string, and the string spells no text. The letters around the escape keep it apart from
other surrogates, and they are no part of a document outside its strings.
-/

namespace CurveSearch.Json

/-- What is read for a byte that belongs to no character. -/
def strayByte : String := "x\\ud800x"

/-- Appends what is read from the byte with an index on. -/
def readFrom (bytes : ByteArray) (i : Nat) (read : String) : String :=
  if i < bytes.size then
    match bytes.utf8DecodeChar? i with
    | some c => readFrom bytes (i + c.utf8Size) (read.push c)
    | none => readFrom bytes (i + 1) (read ++ strayByte)
  else read
  termination_by bytes.size - i
  decreasing_by
    · have := c.utf8Size_pos
      omega
    · omega

def ofBytes (bytes : ByteArray) : String := readFrom bytes 0 ""

end CurveSearch.Json
