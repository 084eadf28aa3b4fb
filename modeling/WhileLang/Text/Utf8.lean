/-!
# Texts as Bytes

The encoding of texts that goes over the input and output channels and into
files. Every text can be encoded; bytes can be decoded only if they are valid.

## Main definitions

* `encode`: The bytes of a text.
* `decode?`: The text of valid bytes.

## Theorems

* `encode_append`: Bytes of two texts one after the other.
* `length_encode_cons`: The number of bytes of a text, from its first character on.
* `decode?_encode`: Encoded text is decoded back.
-/

namespace WhileLang

namespace Utf8

/-- The bytes of a text. -/
def encode (cs : List Char) : List UInt8 :=
  cs.flatMap String.utf8EncodeChar

/-- The text of the bytes, if they are valid. -/
def decode? (bytes : List UInt8) : Option (List Char) :=
  (String.fromUTF8? bytes.toByteArray).map String.toList

/-- Bytes of two texts one after the other. -/
theorem encode_append (cs ds : List Char) : encode (cs ++ ds) = encode cs ++ encode ds :=
  List.flatMap_append

/-- The number of bytes of a text, from its first character on. -/
theorem length_encode_cons (c : Char) (cs : List Char) :
    (encode (c :: cs)).length = c.utf8Size + (encode cs).length := by
  rw [encode, List.flatMap_cons, List.length_append, String.length_utf8EncodeChar, ← encode]

/-- Encoded text is decoded back. -/
theorem decode?_encode (cs : List Char) : decode? (encode cs) = some cs := by
  -- The bytes of a string are by definition the encodings of its characters.
  have h : (encode cs).toByteArray = (String.ofList cs).toByteArray := rfl
  rw [decode?, h, String.fromUTF8?, dif_pos (String.ofList cs).isValidUTF8]
  exact congrArg some (String.toList_ofList (l := cs))

end Utf8

end WhileLang
