import CipherGraph.Json.Codec

/-! # Scheme families

Approximate arithmetic on packed reals, exact arithmetic on packed residues, and
gate-level arithmetic on single small integers.
-/

namespace CipherGraph

inductive SchemeKind where
  | ckks
  | bfv
  | bitwise
deriving DecidableEq, Repr

/-- What a family evaluates natively. Only encrypted operands are meant. -/
structure Capabilities where
  division : Bool
  plainByCipherDivision : Bool
  plainMinusCipher : Bool
  rotation : Bool
  rotationKeys : Bool
  levelled : Bool
deriving DecidableEq, Repr

namespace SchemeKind

def all : List SchemeKind := [.ckks, .bfv, .bitwise]

def capabilities : SchemeKind → Capabilities
  | .ckks => ⟨true, true, false, true, true, true⟩
  | .bfv => ⟨false, false, false, true, true, false⟩
  | .bitwise => ⟨true, true, true, true, false, false⟩

def name : SchemeKind → String
  | .ckks => "ckks"
  | .bfv => "bfv"
  | .bitwise => "bitwise"

/-- The name in a record. -/
def tag : SchemeKind → String
  | .ckks => "Ckks"
  | .bfv => "Bfv"
  | .bitwise => "Bitwise"

def ofTag? (s : String) : Option SchemeKind := all.find? (·.tag = s)

/-- Names are read without regard to the case of ASCII letters. -/
def ofName? (s : String) : Option SchemeKind :=
  all.find? fun kind => kind.name.toList = s.toList.map Char.toLower

def unknownName (s : String) : String :=
  "unknown scheme '" ++ s ++ "', expected ckks/bfv/bitwise"

end SchemeKind

instance : ToJson SchemeKind := ⟨fun k => Json.ofString k.tag⟩

instance : OfJson SchemeKind where
  ofJson? j := do
    match ← j.choice? with
    | (tag, .null) => SchemeKind.ofTag? tag
    | _ => none

end CipherGraph
