import CipherGraph.Json.Basic
import CipherGraph.Text.Hex

/-! # JSON strings

A written string escapes quotes, backslashes and control bytes and leaves all else as
it is. A read one may also escape code units of UTF-16; a surrogate has to be paired.
-/

namespace CipherGraph.Json

def hexByte (n : Nat) : UInt8 := UInt8.ofNat (Hex.digit n).toNat

def escapeByte (b : UInt8) : Bytes :=
  if b = 34 then [92, 34]
  else if b = 92 then [92, 92]
  else if b = 8 then [92, 98]
  else if b = 9 then [92, 116]
  else if b = 10 then [92, 110]
  else if b = 12 then [92, 102]
  else if b = 13 then [92, 114]
  else if b < 32 then [92, 117, 48, 48, hexByte (b.toNat / 16), hexByte (b.toNat % 16)]
  else [b]

def escape (content : Bytes) : Bytes := content.flatMap escapeByte

/-- The byte that a one-letter escape stands for. -/
def simpleEscape? (b : UInt8) : Option UInt8 :=
  if b = 34 ∨ b = 92 ∨ b = 47 then some b
  else if b = 98 then some 8
  else if b = 102 then some 12
  else if b = 110 then some 10
  else if b = 114 then some 13
  else if b = 116 then some 9
  else none

def unit? (a b c d : UInt8) : Option Nat := do
  let digit (x : UInt8) := Hex.digit? (Char.ofNat x.toNat)
  return 4096 * (← digit a) + 256 * (← digit b) + 16 * (← digit c) + (← digit d)

def utf8 (code : Nat) : Bytes := String.utf8EncodeChar (Char.ofNat code)

def isHigh (n : Nat) : Bool := 0xD800 ≤ n && n ≤ 0xDBFF

def isLow (n : Nat) : Bool := 0xDC00 ≤ n && n ≤ 0xDFFF

def pair (high low : Nat) : Nat := 0x10000 + (high - 0xD800) * 0x400 + (low - 0xDC00)

/-- The content of a string as written; `acc` holds what is read, backwards. -/
def unescapeOnto? : Bytes → Bytes → Option Bytes
  | [], acc => some acc.reverse
  | 92 :: 117 :: a :: b :: c :: d :: rest, acc =>
    match unit? a b c d, rest with
    | none, _ => none
    | some n, 92 :: 117 :: a' :: b' :: c' :: d' :: rest' =>
      if isLow n then none
      else if isHigh n then
        match unit? a' b' c' d' with
        | some m =>
          if isLow m then unescapeOnto? rest' ((utf8 (pair n m)).reverseAux acc) else none
        | none => none
      else unescapeOnto? (92 :: 117 :: a' :: b' :: c' :: d' :: rest') ((utf8 n).reverseAux acc)
    | some n, rest =>
      if isLow n || isHigh n then none else unescapeOnto? rest ((utf8 n).reverseAux acc)
  | 92 :: b :: rest, acc =>
    match simpleEscape? b with
    | some x => unescapeOnto? rest (x :: acc)
    | none => none
  | [92], _ => none
  | b :: rest, acc => unescapeOnto? rest (b :: acc)

def unescape? (raw : Bytes) : Option Bytes := unescapeOnto? raw []

def ofBytes (content : Bytes) : Json := .string (escape content)

def ofString (s : String) : Json := ofBytes (Bytes.ofString s)

/-- The text of a string or key as written, if it is one. -/
def textOf? (raw : Bytes) : Option String := do Bytes.toString? (← unescape? raw)

end CipherGraph.Json
