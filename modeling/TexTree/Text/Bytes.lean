/-
TexTree/Text/Bytes.lean

Texts as bytes, which need not be UTF-8.

    encode s          the bytes of a text
    spellings bs      the characters that the bytes spell, each with its own bytes
    trim bs           the bytes without the white space at their two ends

Trimming looks at characters and takes their bytes away whole.  A byte that
belongs to no well-formed sequence is no white space, so trimming stops there.
-/
import TexTree.Text.Blank
import TexTree.Text.Utf8

namespace TexTree.Utf8

/-- The bytes of a text. -/
def encode (s : List Char) : List UInt8 := s.flatMap String.utf8EncodeChar

/-- A character and the bytes that spell it. -/
structure Spelling where
  char : Char
  bytes : List UInt8
  deriving DecidableEq

/-- Reads on after `skip` further bytes. -/
def spellingsAfter : Nat → List UInt8 → List Spelling
  | _, [] => []
  | skip + 1, _ :: rest => spellingsAfter skip rest
  | 0, a :: rest =>
    ⟨(leading a rest).1, a :: rest.take (leading a rest).2⟩ ::
      spellingsAfter (leading a rest).2 rest

/-- The characters that the bytes spell, each with its own bytes. -/
def spellings (bytes : List UInt8) : List Spelling := spellingsAfter 0 bytes

/-- The bytes without the white space at their two ends. -/
def trim (bytes : List UInt8) : List UInt8 :=
  (trimBy (fun s => isBlank s.char) (spellings bytes)).flatMap Spelling.bytes

end TexTree.Utf8
