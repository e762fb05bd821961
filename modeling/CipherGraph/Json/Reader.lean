import CipherGraph.Json.Basic
import CipherGraph.Json.Numeral

/-! # Reading JSON

Bytes become tokens through a scanner that looks at one byte at a time, and
tokens become a tree through a stack of open arrays and objects. Blanks may
stand between tokens; nothing else may follow the tree.
-/

namespace CipherGraph.Json

inductive Token where
  | openArray
  | closeArray
  | openObject
  | closeObject
  | colon
  | comma
  | null
  | bool (value : Bool)
  | number (written : Bytes)
  | string (raw : Bytes)
deriving DecidableEq, Repr

/-- What the scanner is inside of; bytes read so far are kept backwards. -/
inductive Scanner where
  | between
  | word (read : Bytes)
  | number (read : Bytes)
  | string (read : Bytes)
  | escape (read : Bytes)
  | hex (missing : Nat) (read : Bytes)

namespace Scanner

def isBlank (b : UInt8) : Bool := b = 32 || b = 9 || b = 10 || b = 13

def isNumberByte (b : UInt8) : Bool :=
  Decimal.isDigit b || b = 43 || b = 45 || b = 46 || b = 69 || b = 101

def isLetter (b : UInt8) : Bool := 97 ≤ b && b ≤ 122

def isHex (b : UInt8) : Bool :=
  Decimal.isDigit b || (97 ≤ b && b ≤ 102) || (65 ≤ b && b ≤ 70)

/-- The letters that may follow a backslash, `u` apart. -/
def isEscape (b : UInt8) : Bool :=
  b = 34 || b = 92 || b = 47 || b = 98 || b = 102 || b = 110 || b = 114 || b = 116

def wordToken? (letters : Bytes) : Option Token :=
  if letters = nullBytes then some .null
  else if letters = trueBytes then some (.bool true)
  else if letters = falseBytes then some (.bool false)
  else none

def numberToken? (written : Bytes) : Option Token :=
  if (Numeral.ofBytes? written).isSome then some (.number written) else none

/-- A byte that stands between tokens. -/
def start? (b : UInt8) (tokens : List Token) : Option (Scanner × List Token) :=
  if isBlank b then some (.between, tokens)
  else if b = 91 then some (.between, .openArray :: tokens)
  else if b = 93 then some (.between, .closeArray :: tokens)
  else if b = 123 then some (.between, .openObject :: tokens)
  else if b = 125 then some (.between, .closeObject :: tokens)
  else if b = 58 then some (.between, .colon :: tokens)
  else if b = 44 then some (.between, .comma :: tokens)
  else if b = 34 then some (.string [], tokens)
  else if Decimal.isDigit b || b = 45 then some (.number [b], tokens)
  else if isLetter b then some (.word [b], tokens)
  else none

/-- One more byte; `tokens` holds the finished tokens, last first. -/
def feed? (b : UInt8) : Scanner → List Token → Option (Scanner × List Token)
  | .between, tokens => start? b tokens
  | .word read, tokens =>
    if isLetter b then some (.word (b :: read), tokens)
    else do start? b ((← wordToken? read.reverse) :: tokens)
  | .number read, tokens =>
    if isNumberByte b then some (.number (b :: read), tokens)
    else do start? b ((← numberToken? read.reverse) :: tokens)
  | .string read, tokens =>
    if b = 34 then some (.between, .string read.reverse :: tokens)
    else if b = 92 then some (.escape (b :: read), tokens)
    else if b < 32 then none
    else some (.string (b :: read), tokens)
  | .escape read, tokens =>
    if isEscape b then some (.string (b :: read), tokens)
    else if b = 117 then some (.hex 3 (b :: read), tokens)
    else none
  | .hex missing read, tokens =>
    if !isHex b then none
    else match missing with
      | 0 => some (.string (b :: read), tokens)
      | missing + 1 => some (.hex missing (b :: read), tokens)

def finish? : Scanner → List Token → Option (List Token)
  | .between, tokens => some tokens.reverse
  | .word read, tokens => do return ((← wordToken? read.reverse) :: tokens).reverse
  | .number read, tokens => do return ((← numberToken? read.reverse) :: tokens).reverse
  | _, _ => none

def run? : Bytes → Scanner → List Token → Option (List Token)
  | [], s, tokens => s.finish? tokens
  | b :: rest, s, tokens =>
    match s.feed? b tokens with
    | some (s', tokens') => run? rest s' tokens'
    | none => none

end Scanner

def tokens? (text : Bytes) : Option (List Token) := Scanner.run? text .between []

/-- An array or object that is still open; what it holds is kept backwards. -/
inductive Frame where
  | array (items : List Json)
  | object (entries : List (Bytes × Json)) (key : Bytes)

/-- What may come next. The innermost open frame heads `frames`. -/
inductive Builder where
  | item (frames : List Frame)
  | itemOrClose (frames : List Frame)
  | keyOrClose (frames : List Frame)
  | nextKey (entries : List (Bytes × Json)) (frames : List Frame)
  | colon (entries : List (Bytes × Json)) (key : Bytes) (frames : List Frame)
  | separator (frame : Frame) (frames : List Frame)
  | done (tree : Json)

namespace Builder

/-- A finished tree joins the innermost open frame. -/
def complete (tree : Json) : List Frame → Builder
  | [] => .done tree
  | .array items :: frames => .separator (.array (tree :: items)) frames
  | .object entries key :: frames => .separator (.object ((key, tree) :: entries) key) frames

def item? (frames : List Frame) : Token → Option Builder
  | .null => some (complete .null frames)
  | .bool b => some (complete (.bool b) frames)
  | .number written => some (complete (.number written) frames)
  | .string raw => some (complete (.string raw) frames)
  | .openArray => some (.itemOrClose frames)
  | .openObject => some (.keyOrClose frames)
  | _ => none

def step? : Builder → Token → Option Builder
  | .item frames, t => item? frames t
  | .itemOrClose frames, .closeArray => some (complete (.array []) frames)
  | .itemOrClose frames, t => item? (.array [] :: frames) t
  | .keyOrClose frames, .closeObject => some (complete (.object []) frames)
  | .keyOrClose frames, .string raw => some (.colon [] raw frames)
  | .nextKey entries frames, .string raw => some (.colon entries raw frames)
  | .colon entries key frames, .colon => some (.item (.object entries key :: frames))
  | .separator (.array items) frames, .comma => some (.item (.array items :: frames))
  | .separator (.array items) frames, .closeArray =>
    some (complete (.array items.reverse) frames)
  | .separator (.object entries _) frames, .comma => some (.nextKey entries frames)
  | .separator (.object entries _) frames, .closeObject =>
    some (complete (.object entries.reverse) frames)
  | _, _ => none

def run? : List Token → Builder → Option Builder
  | [], s => some s
  | t :: rest, s =>
    match s.step? t with
    | some s' => run? rest s'
    | none => none

end Builder

/-- Reads one tree, with nothing but blanks around it. -/
def parse? (text : Bytes) : Option Json :=
  match tokens? text with
  | none => none
  | some tokens =>
    match Builder.run? tokens (.item []) with
    | some (.done tree) => some tree
    | _ => none

end CipherGraph.Json
