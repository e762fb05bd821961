import CipherGraph.Compile.Basic

/-! # Configuration

What the key owner chooses: sizes, moduli, and the seed of the keys. Every choice has a
default, and environment variables may override some of them.
-/

namespace CipherGraph

structure SchemeConfig where
  degree : Option UInt64
  scaleBits : Nat
  specialPrimeBits : Nat
  plainModulus : UInt64
  bitWidth : Nat
  noise : Bool
  seed : Option UInt64
deriving DecidableEq, Repr

/-- A variable whose value does not fit. -/
structure VariableFault where
  name : String
  value : String
deriving DecidableEq, Repr

namespace SchemeConfig

def default : SchemeConfig := ⟨none, CompileOptions.defaultScaleBits, 60, 786433, 8, true, none⟩

def isBlankChar (c : Char) : Bool :=
  c = ' ' || ('\t' ≤ c && c ≤ '\r') || c = '\u0085' || c = '\u00a0' || c = '\u1680' ||
    ('\u2000' ≤ c && c ≤ '\u200a') || c = '\u2028' || c = '\u2029' || c = '\u202f' ||
    c = '\u205f' || c = '\u3000'

def trim (cs : List Char) : List Char :=
  ((cs.dropWhile isBlankChar).reverse.dropWhile isBlankChar).reverse

def digitsBelow? (bound : Nat) (ds : List Char) : Option Nat :=
  if ds.isEmpty || !ds.all Char.isDigit then none
  else
    let n := ds.foldl (fun n c => 10 * n + (c.toNat - 48)) 0
    if n < bound then some n else none

/-- A natural number below `bound`, perhaps with a plus sign. -/
def naturalBelow? (bound : Nat) : List Char → Option Nat
  | '+' :: ds => digitsBelow? bound ds
  | ds => digitsBelow? bound ds

def setting? (env : List (String × String)) (name : String) (bound : Nat) :
    Except VariableFault (Option Nat) :=
  match env.find? (·.1 = name) with
  | none => .ok none
  | some (_, value) =>
    match naturalBelow? bound (trim value.toList) with
    | some n => .ok (some n)
    | none => .error ⟨name, value⟩

def variableNames : List String :=
  ["FHEGRAPH_POLY_DEGREE", "FHEGRAPH_SCALE_BITS", "FHEGRAPH_PLAIN_MODULUS", "FHEGRAPH_BIT_WIDTH",
    "FHEGRAPH_SEED"]

/-- The defaults, overridden by the variables that are set. -/
def ofEnvironment (env : List (String × String)) : Except VariableFault SchemeConfig := do
  let degree ← setting? env "FHEGRAPH_POLY_DEGREE" UInt64.size
  let scaleBits ← setting? env "FHEGRAPH_SCALE_BITS" UInt32.size
  let plainModulus ← setting? env "FHEGRAPH_PLAIN_MODULUS" UInt64.size
  let bitWidth ← setting? env "FHEGRAPH_BIT_WIDTH" UInt8.size
  let seed ← setting? env "FHEGRAPH_SEED" UInt64.size
  return { default with
    degree := degree.map UInt64.ofNat
    scaleBits := scaleBits.getD default.scaleBits
    plainModulus := (plainModulus.map UInt64.ofNat).getD default.plainModulus
    bitWidth := bitWidth.getD default.bitWidth
    seed := seed.map UInt64.ofNat }

end SchemeConfig

instance : ToJson SchemeConfig where
  toJson c := Json.ofRecord
    [("poly_modulus_degree", toJson c.degree), ("scale_bits", toJson c.scaleBits),
      ("special_prime_bits", toJson c.specialPrimeBits), ("plain_modulus", toJson c.plainModulus),
      ("bit_width", toJson c.bitWidth), ("noise", toJson c.noise), ("seed", toJson c.seed)]

def belowOr? (absent bound : Nat) : Option Json → Option Nat
  | none => some absent
  | some j => j.below? bound

instance : OfJson SchemeConfig where
  ofJson? j := do
    let d := SchemeConfig.default
    match ← j.fields? ["poly_modulus_degree", "scale_bits", "special_prime_bits", "plain_modulus",
        "bit_width", "noise", "seed"] with
    | [degree, scaleBits, special, modulus, bitWidth, noise, seed] =>
      return ⟨← Json.defaulted? d.degree degree, ← belowOr? d.scaleBits UInt32.size scaleBits,
        ← belowOr? d.specialPrimeBits UInt32.size special, ← Json.defaulted? d.plainModulus modulus,
        ← belowOr? d.bitWidth UInt8.size bitWidth, ← Json.defaulted? d.noise noise,
        ← Json.defaulted? d.seed seed⟩
    | _ => none

end CipherGraph
