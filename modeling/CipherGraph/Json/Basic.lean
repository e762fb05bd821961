import CipherGraph.Text.Bytes

/-! # JSON trees

A tree keeps its strings and numbers as they are written; what a string or a
number means is decided where it is used. Writing a tree gives the compact form,
with no blanks.
-/

namespace CipherGraph

/-- Strings and keys hold the bytes between the quotes, escapes included. -/
inductive Json where
  | null
  | bool (value : Bool)
  | number (written : Bytes)
  | string (raw : Bytes)
  | array (items : List Json)
  | object (entries : List (Bytes × Json))

namespace Json

def nullBytes : Bytes := [110, 117, 108, 108]

def trueBytes : Bytes := [116, 114, 117, 101]

def falseBytes : Bytes := [102, 97, 108, 115, 101]

/-- Puts a quoted string in front of text that is kept backwards. -/
def writeString (raw acc : Bytes) : Bytes := 34 :: raw.reverseAux (34 :: acc)

mutual

/-- Writes a tree after `acc`; both `acc` and the result are kept backwards. -/
def write : Json → Bytes → Bytes
  | .null, acc => nullBytes.reverseAux acc
  | .bool true, acc => trueBytes.reverseAux acc
  | .bool false, acc => falseBytes.reverseAux acc
  | .number written, acc => written.reverseAux acc
  | .string raw, acc => writeString raw acc
  | .array [], acc => 93 :: 91 :: acc
  | .array (item :: items), acc => 93 :: writeItems items (write item (91 :: acc))
  | .object [], acc => 125 :: 123 :: acc
  | .object ((key, item) :: entries), acc =>
    125 :: writeEntries entries (write item (58 :: writeString key (123 :: acc)))

def writeItems : List Json → Bytes → Bytes
  | [], acc => acc
  | item :: items, acc => writeItems items (write item (44 :: acc))

def writeEntries : List (Bytes × Json) → Bytes → Bytes
  | [], acc => acc
  | (key, item) :: entries, acc =>
    writeEntries entries (write item (58 :: writeString key (44 :: acc)))

end

def render (j : Json) : Bytes := (j.write []).reverse

end Json

end CipherGraph
