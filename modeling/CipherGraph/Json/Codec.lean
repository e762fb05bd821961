import CipherGraph.Json.Reader
import CipherGraph.Json.Text
import CipherGraph.Decimal.Real

/-! # Typed JSON

`ToJson` and `OfJson` give the trees of the domain's types. A record is an object with
named fields or an array of them in order, a tagged choice is a name or an object with
one entry, and a table is an object in which a repeated key keeps its first place and its
last value.
-/

namespace CipherGraph

class ToJson (α : Type) where
  toJson : α → Json

class OfJson (α : Type) where
  ofJson? : Json → Option α

export ToJson (toJson)
export OfJson (ofJson?)

namespace Json

def natural? : Json → Option Nat
  | .number written => do
    match ← (← Numeral.ofBytes? written).integer? with
    | .ofNat n => some n
    | .negSucc _ => none
  | _ => none

def integer? : Json → Option Int
  | .number written => do (← Numeral.ofBytes? written).integer?
  | _ => none

def below? (bound : Nat) (j : Json) : Option Nat := do
  let n ← j.natural?
  if n < bound then some n else none

def string? : Json → Option String
  | .string raw => textOf? raw
  | _ => none

def array? : Json → Option (List Json)
  | .array items => some items
  | _ => none

def entries? : Json → Option (List (String × Json))
  | .object entries => entries.mapM fun (key, item) => do return (← textOf? key, item)
  | _ => none

/-- The fields of a record, `none` where one is absent. Keys that name no field are passed
over, a field named twice is refused, and an array gives the fields in order. -/
def fields? (names : List String) : Json → Option (List (Option Json))
  | .array items =>
    if items.length ≤ names.length then
      some (items.map some ++ List.replicate (names.length - items.length) none)
    else none
  | j => do
    let entries ← j.entries?
    names.mapM fun name =>
      match entries.filter (·.1 = name) with
      | [] => some none
      | [(_, item)] => some (some item)
      | _ => none

def ofRecord (fields : List (String × Json)) : Json :=
  .object (fields.map fun (key, item) => (escape (Bytes.ofString key), item))

/-- A choice without content is a name, or a name with `null`. -/
def choice? : Json → Option (String × Json)
  | .string raw => do return (← textOf? raw, .null)
  | .object [(key, item)] => do return (← textOf? key, item)
  | _ => none

/-- A choice with content is never a bare name. -/
def content? : Json → Option (String × Json)
  | .object [(key, item)] => do return (← textOf? key, item)
  | _ => none

def ofChoice (name : String) (content : Json) : Json := ofRecord [(name, content)]

def ofNat (n : Nat) : Json := .number (Decimal.ofNat n)

def ofInt (n : Int) : Json := .number (Decimal.ofInt n)

def ofFloat (x : Float) : Json :=
  match Decimal.Real.ofFloat x with
  | some r => .number (Bytes.ofString (Decimal.jsonNotation.render r))
  | none => .null

def text (j : Json) : String := (Bytes.toString? j.render).getD ""

def required? {α : Type} [OfJson α] (field : Option Json) : Option α := field.bind ofJson?

/-- A field that has a value of its own when it is absent. -/
def defaulted? {α : Type} [OfJson α] (absent : α) : Option Json → Option α
  | none => some absent
  | some j => ofJson? j

def read? {α : Type} [OfJson α] (text : Bytes) : Option α := do ofJson? (← parse? text)

end Json

instance : ToJson Json := ⟨id⟩

instance : OfJson Json := ⟨some⟩

instance : ToJson Bool := ⟨Json.bool⟩

instance : OfJson Bool where
  ofJson?
    | .bool b => some b
    | _ => none

instance : ToJson Nat := ⟨Json.ofNat⟩

instance : ToJson Int := ⟨Json.ofInt⟩

instance : ToJson UInt8 := ⟨fun b => Json.ofNat b.toNat⟩

instance : OfJson UInt8 := ⟨fun j => do return UInt8.ofNat (← j.below? UInt8.size)⟩

instance : ToJson UInt64 := ⟨fun b => Json.ofNat b.toNat⟩

instance : OfJson UInt64 := ⟨fun j => do return UInt64.ofNat (← j.below? UInt64.size)⟩

instance : ToJson Int64 := ⟨fun v => Json.ofInt v.toInt⟩

instance : OfJson Int64 where
  ofJson? j := do
    let v ← j.integer?
    if Int64.minValue.toInt ≤ v ∧ v ≤ Int64.maxValue.toInt then some (Int64.ofInt v) else none

instance : ToJson Float := ⟨Json.ofFloat⟩

instance : OfJson Float where
  ofJson?
    | .number written => do (← Json.Numeral.ofBytes? written).float?
    | _ => none

instance : ToJson String := ⟨Json.ofString⟩

instance : OfJson String := ⟨Json.string?⟩

instance {α : Type} [ToJson α] : ToJson (List α) := ⟨fun items => .array (items.map toJson)⟩

instance {α : Type} [OfJson α] : OfJson (List α) where
  ofJson? j := do (← j.array?).mapM ofJson?

instance {α : Type} [ToJson α] : ToJson (Option α) where
  toJson
    | none => .null
    | some a => toJson a

instance {α : Type} [OfJson α] : OfJson (Option α) where
  ofJson?
    | .null => some none
    | j => (ofJson? j).map some

end CipherGraph
