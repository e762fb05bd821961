import CipherGraph.Decimal.Digits

/-! # JSON numbers

A number is a sign, whole digits, and perhaps a fraction and an exponent. It is an
integer only when it is written as one and is not a negative zero. As a real it is
read from its leading significant digits, as many as fit 64 bits, scaled by a power of ten.
-/

namespace CipherGraph.Json

/-- The parts of a number; digits are highest first. -/
structure Numeral where
  negative : Bool
  whole : List Nat
  fraction : Option (List Nat)
  exponent : Option (Bool × List Nat)
deriving Repr, DecidableEq

namespace Numeral

def takeDigits (b : Bytes) : List Nat × Bytes :=
  ((b.takeWhile Decimal.isDigit).map Decimal.digitOf, b.dropWhile Decimal.isDigit)

def takeFraction? : Bytes → Option (Option (List Nat) × Bytes)
  | 46 :: rest =>
    match takeDigits rest with
    | ([], _) => none
    | (ds, rest) => some (some ds, rest)
  | rest => some (none, rest)

def takeSign : Bytes → Bool × Bytes
  | 45 :: rest => (true, rest)
  | 43 :: rest => (false, rest)
  | rest => (false, rest)

def takeExponent? : Bytes → Option (Option (Bool × List Nat) × Bytes)
  | [] => some (none, [])
  | b :: rest =>
    if b = 101 || b = 69 then
      let (negative, rest) := takeSign rest
      match takeDigits rest with
      | ([], _) => none
      | (ds, rest) => some (some (negative, ds), rest)
    else some (none, b :: rest)

/-- A zero that leads other whole digits is refused. -/
def takeWhole? (b : Bytes) : Option (List Nat × Bytes) :=
  match takeDigits b with
  | ([], _) => none
  | (0 :: _ :: _, _) => none
  | (ds, rest) => some (ds, rest)

def ofBytes? (b : Bytes) : Option Numeral := do
  let (negative, b) := match b with
    | 45 :: rest => (true, rest)
    | b => (false, b)
  let (whole, b) ← takeWhole? b
  let (fraction, b) ← takeFraction? b
  let (exponent, b) ← takeExponent? b
  match b with
  | [] => some ⟨negative, whole, fraction, exponent⟩
  | _ => none

/-- The value of a number written as an integer. A negative zero is a real. -/
def integer? (n : Numeral) : Option Int :=
  match n.fraction, n.exponent with
  | none, none =>
    match n.negative, Decimal.value n.whole with
    | false, v => some v
    | true, 0 => none
    | true, v => some (-(v : Int))
  | _, _ => none

/-- Digits read into 64 bits: the value so far and how many digits were taken. -/
structure Significand where
  value : Nat
  taken : Nat
  full : Bool

def Significand.add (s : Significand) (d : Nat) : Significand :=
  if s.full then s
  else if 10 * s.value + d < UInt64.size then ⟨10 * s.value + d, s.taken + 1, false⟩
  else ⟨s.value, s.taken, true⟩

def tenTo (e : Nat) : Float := Float.ofScientific 1 false e

/-- Divides by a power of ten, at most `1e308` at a time. -/
def shrink (x : Float) (e : Nat) : Float :=
  if e ≤ 308 then x / tenTo e
  else if x == 0.0 then x
  else shrink (x / tenTo 308) (e - 308)
termination_by e
decreasing_by omega

/-- A significand times a power of ten; values too large for a finite real are refused. -/
def scale? (significand : Nat) (exponent : Int) : Option Float :=
  let x := (UInt64.ofNat significand).toFloat
  if exponent < 0 then some (shrink x exponent.natAbs)
  else if exponent ≤ 308 then
    let y := x * tenTo exponent.natAbs
    if y.isInf then none else some y
  else if x == 0.0 then some x
  else none

def signed (negative : Bool) (x : Float) : Float := if negative then -x else x

/-- Every number is a real unless its magnitude is beyond the largest finite one. Whole
digits past the 64-bit limit count only as powers of ten; such fraction digits not at all. -/
def float? (n : Numeral) : Option Float :=
  let whole := n.whole.foldl Significand.add ⟨0, 0, false⟩
  let skipped := n.whole.length - whole.taken
  let all := (n.fraction.getD []).foldl Significand.add ⟨whole.value, 0, false⟩
  let base : Int := skipped - all.taken
  match n.exponent with
  | none => (scale? all.value base).map (signed n.negative)
  | some (negative, ds) =>
    let e := Decimal.value ds
    if e < UInt32.size / 2 then
      (scale? all.value (if negative then base - e else base + e)).map (signed n.negative)
    else if all.value = 0 || negative then some (signed n.negative 0.0)
    else none

end Numeral

end CipherGraph.Json
