import CipherGraph.Json.Basic

/-! # JSON for people

Every item and every entry stands on a line of its own, indented by two blanks a level.
Empty arrays and objects stay on their line.
-/

namespace CipherGraph.Json

/-- A line break and the blanks of a level, in front of text that is kept backwards. -/
def breakLine (level : Nat) (acc : Bytes) : Bytes := List.replicate (2 * level) 32 ++ 10 :: acc

mutual

/-- Writes a tree after `acc`; both `acc` and the result are kept backwards. -/
def writePretty (level : Nat) : Json → Bytes → Bytes
  | .array (item :: items), acc =>
    93 :: breakLine level
      (prettyItems level items (writePretty (level + 1) item (breakLine (level + 1) (91 :: acc))))
  | .object ((key, item) :: entries), acc =>
    125 :: breakLine level
      (prettyEntries level entries
        (writePretty (level + 1) item
          (32 :: 58 :: writeString key (breakLine (level + 1) (123 :: acc)))))
  | j, acc => j.write acc

def prettyItems (level : Nat) : List Json → Bytes → Bytes
  | [], acc => acc
  | item :: items, acc =>
    prettyItems level items (writePretty (level + 1) item (breakLine (level + 1) (44 :: acc)))

def prettyEntries (level : Nat) : List (Bytes × Json) → Bytes → Bytes
  | [], acc => acc
  | (key, item) :: entries, acc =>
    prettyEntries level entries
      (writePretty (level + 1) item
        (32 :: 58 :: writeString key (breakLine (level + 1) (44 :: acc))))

end

def pretty (j : Json) : Bytes := (j.writePretty 0 []).reverse

end CipherGraph.Json
