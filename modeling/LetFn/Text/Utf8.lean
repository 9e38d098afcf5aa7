/-!
# UTF-8

A text has one form in bytes, and bytes that are the form of no text cannot be
read.
-/

namespace LetFn.Text

def encode (cs : List Char) : List UInt8 := cs.flatMap String.utf8EncodeChar

/-- The text of bytes, if they are the bytes of one. -/
def decode (bytes : List UInt8) : Option (List Char) :=
  bytes.toByteArray.utf8Decode?.map Array.toList

theorem toByteArray_encode (cs : List Char) : (encode cs).toByteArray = cs.utf8Encode := rfl

@[simp] theorem decode_encode (cs : List Char) : decode (encode cs) = some cs := by
  simp [decode, toByteArray_encode]

theorem eq_encode_of_decode {bytes : List UInt8} {cs : List Char} (h : decode bytes = some cs) :
    bytes = encode cs := by
  obtain ⟨chars, hc, rfl⟩ := Option.map_eq_some_iff.1 h
  have hs : bytes.toByteArray.utf8Decode?.isSome := by simp [hc]
  have he := ByteArray.utf8Encode_get_utf8Decode? (h := hs)
  simp only [hc, Option.get_some, ← toByteArray_encode] at he
  have hd := congrArg ByteArray.data he
  simpa using hd.symm

theorem decode_eq_some_iff {bytes : List UInt8} {cs : List Char} :
    decode bytes = some cs ↔ bytes = encode cs :=
  ⟨eq_encode_of_decode, fun h => h ▸ decode_encode cs⟩

end LetFn.Text
