import CipherGraph.Ascending
import CipherGraph.Graph.Typing

/-! # Key requirements

What keys a lowered graph needs: which rotations of encrypted values it makes, how many
encrypted products follow one another, and whether two ciphertexts are multiplied.
-/

namespace CipherGraph

/-- `rotationSteps` ascend; steps to the right are negative. -/
structure KeyRequirements where
  rotationSteps : List Int
  depth : Nat
  relinearize : Bool
  width : Nat
deriving DecidableEq, Repr

namespace KeyRequirements

def none : KeyRequirements := ⟨[], 0, false, 0⟩

/-- What covers both. -/
def union (a b : KeyRequirements) : KeyRequirements :=
  ⟨Ascending.union a.rotationSteps b.rotationSteps, max a.depth b.depth,
    a.relinearize || b.relinearize, max a.width b.width⟩

end KeyRequirements

def signed32 (n : Int) : Int := n.bmod UInt32.size

/-- The signed step of a rotation of vectors of `width` slots; a whole turn is no step. -/
def rotationStep (steps width : Nat) (left : Bool) : Int :=
  let step := signed32 (steps % max width 1 : Nat)
  if left then step else signed32 (-step)

namespace Graph

def stepOf? (g : Graph) : Operation → Option Int
  | .rotateLeft steps => some (rotationStep steps g.width true)
  | .rotateRight steps => some (rotationStep steps g.width false)
  | _ => none

def isProduct : Operation → Bool
  | .arithmetic .mul | .arithmetic .div => true
  | _ => false

def isMultiplication : Operation → Bool
  | .arithmetic .mul => true
  | _ => false

def deepest (depths : OrderedMap NodeId Nat) (ids : List NodeId) : Nat :=
  ids.foldl (fun d id => max d ((depths.find? id).getD 0)) 0

/-- Requirements so far and the depth of every node visited. -/
structure Analysis where
  requirements : KeyRequirements
  depths : OrderedMap NodeId Nat

def analyzeNode (g : Graph) (t : Typing) (a : Analysis) (id : NodeId) :
    Except GraphError Analysis := do
  let operands := g.operands id
  let encrypted := (← t.of id).isCipher
  let op ← g.op? id
  let below := deepest a.depths operands
  let r := a.requirements
  let finish (r : KeyRequirements) (depth : Nat) : Analysis :=
    ⟨{ r with depth := max r.depth depth }, a.depths.insert id depth⟩
  if !encrypted then return finish r below
  if isProduct op then
    let classes ← operands.mapM t.of
    let relinearize := r.relinearize || (classes.all (·.isCipher) && isMultiplication op)
    return finish { r with relinearize } (below + 1)
  match g.stepOf? op with
  | some step =>
    if step = 0 then return finish r below
    else return finish { r with rotationSteps := Ascending.insert step r.rotationSteps } below
  | none => return finish r below

def requirements (g : Graph) (t : Typing) : Except GraphError KeyRequirements := do
  let order ← g.forwardOrder
  let start : Analysis := ⟨{ KeyRequirements.none with width := g.width }, ∅⟩
  return (← order.foldlM (g.analyzeNode t) start).requirements

end Graph

instance : ToJson KeyRequirements where
  toJson r := Json.ofRecord
    [("rotation_steps", toJson r.rotationSteps), ("mult_depth", toJson r.depth),
      ("needs_relin", toJson r.relinearize), ("max_vec_width", toJson r.width)]

def stepFrom? (j : Json) : Option Int := do
  let v ← j.integer?
  if Int32.minValue.toInt ≤ v ∧ v ≤ Int32.maxValue.toInt then some v else none

instance : OfJson KeyRequirements where
  ofJson? j := do
    match ← j.fields? ["rotation_steps", "mult_depth", "needs_relin", "max_vec_width"] with
    | [steps, depth, relinearize, width] =>
      return ⟨Ascending.ofList (← (← (← steps).array?).mapM stepFrom?),
        ← (← depth).below? UInt32.size, ← Json.required? relinearize, ← (← width).below? UInt32.size⟩
    | _ => none

end CipherGraph
