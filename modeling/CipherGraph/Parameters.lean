import CipherGraph.Compile.Requirements
import CipherGraph.Error

/-! # Encryption parameters

A context is derived from these alone. The packed families have a ring degree and a chain
of primes whose total size the degree bounds; the gate-level family has a bit width.
-/

namespace CipherGraph

structure Parameters where
  scheme : SchemeKind
  degree : UInt64
  chain : List Nat
  plainModulus : UInt64
  bitWidth : Nat
  noise : Bool
deriving DecidableEq, Repr

namespace Parameters

/-- The supported ring degrees, ascending, each with the most bits its chain may have. -/
def degrees : List (Nat × Nat) :=
  [(1024, 27), (2048, 54), (4096, 109), (8192, 218), (16384, 438), (32768, 881)]

def maxPrimeBits : Nat := 60

def maxModulusBits? (degree : Nat) : Option Nat := (degrees.find? (·.1 = degree)).map (·.2)

/-- The primes of the exact family, by ring degree. -/
def exactChain : Nat → List Nat
  | 1024 => [27]
  | 2048 => [54]
  | 4096 => [36, 36, 37]
  | 8192 => [43, 43, 44, 44, 44]
  | 16384 => [48, 48, 48, 49, 49, 49, 49, 49, 49]
  | 32768 => List.replicate 16 55
  | _ => []

def ckks (degree : UInt64) (chain : List Nat) : Parameters := ⟨.ckks, degree, chain, 0, 0, true⟩

def bfv (degree plainModulus : UInt64) : Parameters :=
  ⟨.bfv, degree, exactChain degree.toNat, plainModulus, 0, false⟩

def bitwise (bitWidth : Nat) : Parameters :=
  ⟨.bitwise, 0, [], UInt64.ofNat (1 <<< min bitWidth 8), bitWidth, false⟩

def slotCount (p : Parameters) : Nat :=
  match p.scheme with
  | .ckks => p.degree.toNat / 2
  | .bfv => p.degree.toNat
  | .bitwise => 1

/-- Levels to spend: every prime of the chain but the first and the last. -/
def maxLevel (p : Parameters) : Nat :=
  match p.scheme with
  | .ckks => p.chain.length - 2
  | .bfv | .bitwise => 0

/-- The bits of the product of a chain's primes, of these many bits each. What adds them up refuses
sums that a word of 32 bits does not hold. -/
def chainBits (chain : List Nat) : Nat := chain.foldl (· + ·) 0

def totalBits (p : Parameters) : Nat := chainBits p.chain

/-- The slots that one automorphism rotates together. -/
def rowSize (p : Parameters) : Nat :=
  match p.scheme with
  | .ckks | .bfv => p.degree.toNat / 2
  | .bitwise => 1

def checkChain (p : Parameters) : Except ParameterFault Unit := do
  match maxModulusBits? p.degree.toNat with
  | none => throw (.degree p.degree)
  | some limit =>
    if p.chain.isEmpty || p.chain.any (fun bits => bits = 0 || bits > maxPrimeBits) then
      throw (.primeBits p.chain)
    if UInt32.size ≤ p.totalBits then throw .chainOverflow
    if p.totalBits > limit then throw (.modulusBits p.totalBits limit p.degree)

/-- Residues can be packed if the plain modulus is one more than a multiple of twice the degree. -/
def checkBatching (p : Parameters) : Except ParameterFault Unit :=
  let step := 2 * p.degree.toNat
  if p.plainModulus.toNat < 2 ∨ p.plainModulus.toNat % step ≠ 1 then
    .error (.batching p.plainModulus p.degree step)
  else .ok ()

def validate (p : Parameters) : Except ParameterFault Unit :=
  match p.scheme with
  | .ckks => do
    p.checkChain
    if p.chain.length < 2 then throw .missingPrimes
  | .bfv => do
    p.checkChain
    p.checkBatching
  | .bitwise =>
    if p.bitWidth < 1 ∨ 8 < p.bitWidth then .error (.bitWidth p.bitWidth)
    else if p.plainModulus.toNat ≠ 1 <<< p.bitWidth then .error .bitwiseModulus
    else .ok ()

/-- A special prime, one prime of the scale's size for every level of depth, a special prime. -/
def approximateChain (c : SchemeConfig) (depth : Nat) : List Nat :=
  c.specialPrimeBits :: List.replicate depth c.scaleBits ++ [c.specialPrimeBits]

def selectApproximate (r : KeyRequirements) (c : SchemeConfig) (width : Nat) :
    Except ParameterFault Parameters := do
  if c.scaleBits = 0 || c.scaleBits > maxPrimeBits then throw (.scale c.scaleBits)
  let chain := approximateChain c r.depth
  let total := chainBits chain
  if UInt32.size ≤ total then throw .chainOverflow
  match c.degree with
  | some degree => return { ckks degree chain with noise := c.noise }
  | none =>
    match degrees.find? fun (degree, limit) => degree / 2 ≥ width && limit ≥ total with
    | some (degree, _) => return { ckks (UInt64.ofNat degree) chain with noise := c.noise }
    | none => throw (.noDegree width total r.depth)

/-- Slots the exact family needs; rotations work on two rows of half the slots each. -/
def slotsNeeded (r : KeyRequirements) (width : Nat) : Nat :=
  if r.rotationSteps.isEmpty then width else 2 * width

def selectExact (r : KeyRequirements) (c : SchemeConfig) (width : Nat) :
    Except ParameterFault Parameters :=
  match c.degree with
  | some degree => .ok (bfv degree c.plainModulus)
  | none =>
    let needed := slotsNeeded r width
    match degrees.find? fun (degree, _) => degree ≥ max needed 4096 with
    | some (degree, _) => .ok (bfv (UInt64.ofNat degree) c.plainModulus)
    | none => .error (.noDegreeOfSlots needed)

def selectBitwise (r : KeyRequirements) (c : SchemeConfig) : Except ParameterFault Parameters :=
  if r.width > 1 then .error (.bitwiseWidth r.width) else .ok (bitwise c.bitWidth)

/-- The smallest parameters that serve the requirements, unless the degree is prescribed. -/
def select (scheme : SchemeKind) (r : KeyRequirements) (c : SchemeConfig) :
    Except ParameterFault Parameters := do
  let width := max r.width 1
  let p ← match scheme with
    | .ckks => selectApproximate r c width
    | .bfv => selectExact r c width
    | .bitwise => selectBitwise r c
  p.validate
  if p.slotCount < width then throw (.width width p.slotCount)
  return p

end Parameters

instance : ToJson Parameters where
  toJson p := Json.ofRecord
    [("scheme", toJson p.scheme), ("poly_modulus_degree", toJson p.degree),
      ("coeff_modulus_bits", toJson p.chain), ("plain_modulus", toJson p.plainModulus),
      ("bit_width", toJson p.bitWidth), ("noise", toJson p.noise)]

instance : OfJson Parameters where
  ofJson? j := do
    match ← j.fields? ["scheme", "poly_modulus_degree", "coeff_modulus_bits", "plain_modulus",
        "bit_width", "noise"] with
    | [scheme, degree, chain, modulus, bitWidth, noise] =>
      return ⟨← Json.required? scheme, ← Json.required? degree,
        ← (← (← chain).array?).mapM (Json.below? UInt32.size), ← Json.required? modulus,
        ← (← bitWidth).below? UInt8.size, ← Json.required? noise⟩
    | _ => none

end CipherGraph
