import CipherGraph.Decimal.Digits

/-! # Shortest decimals

A finite double is read back from every decimal of an interval around it. The coarsest
grid of powers of ten with a point in that interval gives the fewest digits; of its points
the nearest to the double is taken.
-/

namespace CipherGraph.Decimal

/-- A signed decimal: `digits` after a point, times ten to `exponent + 1`. The first digit is not
zero unless the value is. -/
structure Real where
  negative : Bool
  digits : List Nat
  exponent : Int
deriving Repr, DecidableEq

namespace Real

/-- The reals that round to one double, over a common denominator. -/
structure Interval where
  low : Nat
  mid : Nat
  high : Nat
  denominator : Nat
  closed : Bool

/-- The neighbourhood of `m * 2 ^ q`. Below a power of two the next double is half as far. -/
def Interval.around (m : Nat) (q : Int) : Interval :=
  let narrow : Bool := m = 1 <<< 52 && q > -1074
  let up := if q ≥ 0 then 1 <<< q.toNat else 1
  let down := if q ≥ 0 then 1 else 1 <<< (-q).toNat
  ⟨(4 * m - if narrow then 1 else 2) * up, 4 * m * up, (4 * m + 2) * up, 4 * down, m % 2 = 0⟩

/-- Whether `n * 10 ^ p` rounds to the double. -/
def Interval.holds (i : Interval) (n : Nat) (p : Int) : Bool :=
  let scaled := n * (if p ≥ 0 then Nat.pow 10 p.toNat else 1) * i.denominator
  let unit := if p ≥ 0 then 1 else Nat.pow 10 (-p).toNat
  if i.closed then i.low * unit ≤ scaled && scaled ≤ i.high * unit
  else i.low * unit < scaled && scaled < i.high * unit

/-- The point of the grid `10 ^ p` that reads back and is nearest to the double, if there is one.
An exact tie goes to the even point. -/
def Interval.point? (i : Interval) (p : Int) : Option Nat :=
  let unit := i.denominator * (if p ≥ 0 then Nat.pow 10 p.toNat else 1)
  let mid := i.mid * (if p ≥ 0 then 1 else Nat.pow 10 (-p).toNat)
  let below := mid / unit
  let rest := mid % unit
  match below ≠ 0 && i.holds below p, i.holds (below + 1) p with
  | true, true =>
    if 2 * rest < unit then some below
    else if 2 * rest = unit then some (if below % 2 = 0 then below else below + 1)
    else some (below + 1)
  | true, false => some below
  | false, true => some (below + 1)
  | false, false => none

/-- Tries `count` grids from `10 ^ p` down. -/
def Interval.coarsest (i : Interval) : Nat → Int → Nat × Int
  | 0, p => (i.mid / i.denominator, p)
  | count + 1, p =>
    match i.point? p with
    | some n => (n, p)
    | none => i.coarsest count (p - 1)

/-- The shortest decimal that reads back as `m * 2 ^ q`, with `m` not zero. -/
def ofParts (negative : Bool) (m : Nat) (q : Int) : Real :=
  let start : Int := (m.log2 + q + 1) * 30103 / 100000 + 2
  let (n, p) := (Interval.around m q).coarsest 400 start
  let ds := Decimal.digits n
  ⟨negative, ds, p + ds.length - 1⟩

/-- Nothing for infinities and values that are no number. -/
def ofFloat (x : Float) : Option Real :=
  let bits : Nat := x.toBits.toNat
  let negative := bits >>> 63 = 1
  let field : Nat := (bits >>> 52) % 2048
  let fraction : Nat := bits % (1 <<< 52)
  if field = 2047 then none
  else if field = 0 then
    if fraction = 0 then some ⟨negative, [0], 0⟩
    else some (ofParts negative fraction (-1074))
  else some (ofParts negative ((1 <<< 52) + fraction) (field - 1075))

end Real

/-- How a decimal is laid out: which exponents are written without one, whether whole numbers
keep a point, and whether a positive exponent has a sign. -/
structure Layout where
  positional : Int → Bool
  pointed : Bool
  signedExponent : Bool

namespace Layout

def digitText (ds : List Nat) : String := String.ofList (ds.map fun d => Char.ofNat (48 + d))

def zeros (n : Nat) : List Nat := List.replicate n 0

/-- Digits with a point after the first `before` of them. -/
def withPoint (l : Layout) (ds : List Nat) (before : Int) : String :=
  if before ≤ 0 then "0." ++ digitText (zeros (-before).toNat ++ ds)
  else
    let k := before.toNat
    if ds.length ≤ k then
      digitText (ds ++ zeros (k - ds.length)) ++ if l.pointed then ".0" else ""
    else digitText (ds.take k) ++ "." ++ digitText (ds.drop k)

def scientific (l : Layout) (ds : List Nat) (e : Int) : String :=
  let head := match ds with
    | d :: rest@(_ :: _) => digitText [d] ++ "." ++ digitText rest
    | ds => digitText ds
  let sign := if e < 0 then "-" else if l.signedExponent then "+" else ""
  head ++ "e" ++ sign ++ digitText (Decimal.digits e.natAbs)

def render (l : Layout) (r : Real) : String :=
  let text :=
    if l.positional r.exponent then l.withPoint r.digits (r.exponent + 1)
    else l.scientific r.digits r.exponent
  if r.negative then "-" ++ text else text

end Layout

/-- Reals in written JSON are positional from `1e-5` up to below `1e16` and always show a point. -/
def jsonNotation : Layout := ⟨fun e => -5 ≤ e && e ≤ 15, true, true⟩

/-- Reals in messages are always positional, whole ones without a point. -/
def plainNotation : Layout := ⟨fun _ => true, false, true⟩

def plainText (x : Float) : String :=
  match Real.ofFloat x with
  | some r => plainNotation.render r
  | none => if x.isNaN then "NaN" else if x < 0.0 then "-inf" else "inf"

end CipherGraph.Decimal
