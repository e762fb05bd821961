import CipherGraph.Proofs.Cyclic
import CipherGraph.Proofs.Meaning
import CipherGraph.Proofs.Residues
import CipherGraph.Valuation

/-! # Reference values

What the nodes of a graph stand for in exact computation. Clear nodes compute with vectors of
64-bit integers, which wrap around, and encoded and encrypted nodes with vectors of residues of the
plain modulus. Vectors are cyclic and as wide as the graph.
-/

namespace CipherGraph

/-- A vector of integers, or of residues once it is encoded. -/
inductive Lanes (w t : Nat) where
  | clear (x : ZMod w → Int64)
  | coded (x : ZMod w → ZMod t)

namespace Lanes

variable {w t : Nat}

/-- How encrypted arithmetic reads a vector. -/
def residues : Lanes w t → ZMod w → ZMod t
  | clear x => fun i => (x i).toInt
  | coded x => x

/-- The integers in the lanes, those of least magnitude for residues. -/
def lift : Lanes w t → ZMod w → Int
  | clear x => fun i => (x i).toInt
  | coded x => fun i => (x i).valMinAbs

def turn : Lanes w t → ZMod w → Lanes w t
  | clear x, k => clear (turned x k)
  | coded x, k => coded (turned x k)

end Lanes

namespace Arithmetic

def onIntegers : Arithmetic → Int64 → Int64 → Int64
  | .add, x, y => x + y
  | .sub, x, y => x - y
  | .mul, x, y => x * y
  | .div, x, y => x / y

def onResidues {t : Nat} : Arithmetic → ZMod t → ZMod t → ZMod t
  | .add, r, s => r + s
  | .sub, r, s => r - s
  | .mul, r, s => r * s
  | .div, r, s => r * s⁻¹

end Arithmetic

def wholeIntegers (l : List Float) : List Int64 :=
  match l.mapM Slot.integerOf with
  | .ok slots => slots
  | .error _ => []

def Constant.exactIntegers : Constant → List Int64
  | .reals l => wholeIntegers l
  | .integers l => l
  | .byte b => [Slot.byteInteger b]

def PlainValue.exactIntegers : PlainValue → List Int64
  | .real x => wholeIntegers [x]
  | .reals l => wholeIntegers l
  | .integer v => [v]
  | .integers l => l
  | .byte b => [Slot.byteInteger b]

/-- The vector of an input, short vectors and scalars repeated. -/
def Valuation.lanes (valuation : Valuation) (w : Nat) (name : String) : ZMod w → Int64 :=
  match valuation.find? name with
  | some value => cycle w value.exactIntegers
  | none => fun _ => 0

/-- The meaning of the operations in exact computation. -/
def exactMeaning (w t : Nat) (valuation : Valuation) : Interpretation (Lanes w t) where
  input name type :=
    if type = .raw then .clear (valuation.lanes w name)
    else .coded fun i => (valuation.lanes w name i).toInt
  constant c := .clear (cycle w c.exactIntegers)
  encode _ _ x := .coded x.residues
  negate d :=
    match d.type, d.value with
    | .raw, .clear x => .clear fun i => -x i
    | _, x => .coded fun i => -x.residues i
  rotateLeft steps d := d.value.turn steps
  rotateRight steps d := d.value.turn (-steps)
  clear op a b :=
    match a.value, b.value with
    | .clear x, .clear y => .clear fun i => op.onIntegers (x i) (y i)
    | x, y => .coded fun i => op.onResidues (x.residues i) (y.residues i)
  encrypted op x y := .coded fun i => op.onResidues (x.residues i) (y.residues i)
  aggregate _ _ := .clear fun _ => 0

theorem exactMeaning_lawful (w t : Nat) (valuation : Valuation) :
    (exactMeaning w t valuation).Lawful where
  add_comm x y := congrArg Lanes.coded (funext fun i => add_comm (x.residues i) (y.residues i))
  mul_comm x y := congrArg Lanes.coded (funext fun i => mul_comm (x.residues i) (y.residues i))
  sub_eq x y := by
    refine congrArg Lanes.coded (funext fun i => ?_)
    change x.residues i - y.residues i = -y.residues i + x.residues i
    rw [sub_eq_add_neg, add_comm]

end CipherGraph
