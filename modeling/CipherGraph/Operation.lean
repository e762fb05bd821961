import CipherGraph.Constant
import CipherGraph.ValueClass

/-! # Operations

What a node of a graph computes from its operands.
-/

namespace CipherGraph

inductive Arithmetic where
  | add
  | sub
  | mul
  | div
deriving DecidableEq, Repr

namespace Arithmetic

def all : List Arithmetic := [.add, .sub, .mul, .div]

def isCommutative : Arithmetic → Bool
  | .add | .mul => true
  | .sub | .div => false

def name : Arithmetic → String
  | .add => "add"
  | .sub => "sub"
  | .mul => "mul"
  | .div => "div"

def tag : Arithmetic → String
  | .add => "Add"
  | .sub => "Sub"
  | .mul => "Mul"
  | .div => "Div"

end Arithmetic

/-- Comparisons and aggregates, which a front end has to expand before compilation. -/
inductive Aggregate where
  | equality
  | greater
  | less
  | sumIf
  | countIf
  | select
deriving DecidableEq, Repr

namespace Aggregate

def all : List Aggregate := [.equality, .greater, .less, .sumIf, .countIf, .select]

def arity : Aggregate → Nat
  | .equality | .greater | .less | .sumIf => 2
  | .countIf => 1
  | .select => 3

def tag : Aggregate → String
  | .equality => "Equality"
  | .greater => "Greater"
  | .less => "Less"
  | .sumIf => "SumIf"
  | .countIf => "CountIf"
  | .select => "Select"

def name (a : Aggregate) : String := String.ofList (a.tag.toList.map Char.toLower)

end Aggregate

inductive Operation where
  | input (name : String) (type : ValueClass)
  | output (name : String)
  | constant (value : Constant)
  | arithmetic (op : Arithmetic)
  | negate
  | rotateLeft (steps : Nat)
  | rotateRight (steps : Nat)
  | encode (scaleBits level : Nat)
  | aggregate (op : Aggregate)

namespace Operation

def arity : Operation → Nat
  | .input .. | .constant _ => 0
  | .output _ | .negate | .rotateLeft _ | .rotateRight _ | .encode .. => 1
  | .arithmetic _ => 2
  | .aggregate op => op.arity

def name : Operation → String
  | .input .. => "input"
  | .output _ => "output"
  | .constant _ => "constant"
  | .arithmetic op => op.name
  | .negate => "negate"
  | .rotateLeft _ => "rotate_left"
  | .rotateRight _ => "rotate_right"
  | .encode .. => "encode"
  | .aggregate op => op.name

end Operation

instance : ToJson Arithmetic := ⟨fun op => Json.ofString op.tag⟩

instance : OfJson Arithmetic where
  ofJson? j := do
    match ← j.choice? with
    | (tag, .null) => Arithmetic.all.find? (·.tag = tag)
    | _ => none

instance : ToJson Aggregate := ⟨fun op => Json.ofString op.tag⟩

instance : OfJson Aggregate where
  ofJson? j := do
    match ← j.choice? with
    | (tag, .null) => Aggregate.all.find? (·.tag = tag)
    | _ => none

namespace Operation

def write : Operation → Json
  | .input name type =>
    Json.ofChoice "Input" (Json.ofRecord [("name", toJson name), ("ty", toJson type)])
  | .output name => Json.ofChoice "Output" (Json.ofRecord [("name", toJson name)])
  | .constant value => Json.ofChoice "Constant" (Json.ofRecord [("value", toJson value)])
  | .arithmetic op => Json.ofChoice "Binary" (Json.ofRecord [("op", toJson op)])
  | .negate => Json.ofString "Negate"
  | .rotateLeft steps => Json.ofChoice "RotateLeft" (Json.ofRecord [("steps", toJson steps)])
  | .rotateRight steps => Json.ofChoice "RotateRight" (Json.ofRecord [("steps", toJson steps)])
  | .encode scaleBits level =>
    Json.ofChoice "Encode"
      (Json.ofRecord [("scale_bits", toJson scaleBits), ("level", toJson level)])
  | .aggregate op => Json.ofChoice "Macro" (Json.ofRecord [("op", toJson op)])

def word? (field : Option Json) : Option Nat := do (← field).below? UInt32.size

def readContent? (tag : String) (content : Json) : Option Operation := do
  match tag with
  | "Input" =>
    match ← content.fields? ["name", "ty"] with
    | [name, type] => return .input (← Json.required? name) (← Json.required? type)
    | _ => none
  | "Output" =>
    match ← content.fields? ["name"] with
    | [name] => return .output (← Json.required? name)
    | _ => none
  | "Constant" =>
    match ← content.fields? ["value"] with
    | [value] => return .constant (← Json.required? value)
    | _ => none
  | "Binary" =>
    match ← content.fields? ["op"] with
    | [op] => return .arithmetic (← Json.required? op)
    | _ => none
  | "RotateLeft" =>
    match ← content.fields? ["steps"] with
    | [steps] => return .rotateLeft (← word? steps)
    | _ => none
  | "RotateRight" =>
    match ← content.fields? ["steps"] with
    | [steps] => return .rotateRight (← word? steps)
    | _ => none
  | "Encode" =>
    match ← content.fields? ["scale_bits", "level"] with
    | [scaleBits, level] => return .encode (← word? scaleBits) (← word? level)
    | _ => none
  | "Macro" =>
    match ← content.fields? ["op"] with
    | [op] => return .aggregate (← Json.required? op)
    | _ => none
  | _ => none

def read? (j : Json) : Option Operation := do
  match ← j.choice? with
  | ("Negate", .null) => return .negate
  | _ =>
    let (tag, content) ← j.content?
    readContent? tag content

end Operation

instance : ToJson Operation := ⟨Operation.write⟩

instance : OfJson Operation := ⟨Operation.read?⟩

end CipherGraph
