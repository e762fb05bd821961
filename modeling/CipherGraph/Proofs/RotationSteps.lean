import CipherGraph.Proofs.ParameterFit
import CipherGraph.Proofs.RowTurns

/-! # Steps in 32 bits

What is left of the steps of a rotation after whole turns is cast to 32 bits with a sign, and then
negated for a rotation to the right. From `2 ^ 31` on the cast changes it, and what is recorded no
longer agrees with the steps. Only vectors longer than that have so much left, and no machine takes
them.
-/

namespace CipherGraph

section

variable {steps width : Nat}

variable (hpos : 0 < width) (hwidth : width < UInt32.size)

include hpos hwidth

end

open Command

/-- Gates turn the bits of a single number, so that their steps count eight to a turn. -/
theorem Gates.rotationStep_eq (steps width : Nat) (left : Bool) :
    Gates.rotationStep steps width left = placesLeft (steps % 8 : Nat) left := by
  cases left <;> rfl

namespace Graph

variable {g : Graph} {t : Typing}

/-- The vector `x`, as long as vectors can be, encrypted and turned left by all slots but one. -/
def wideTurn : Graph :=
  { Graph.blank "g" 4294967295 ⟨0⟩ with
    nodes := [⟨0, .input "x" .cipher⟩, ⟨1, .rotateLeft 4294967294⟩, ⟨2, .output "z"⟩]
    edges := [⟨⟨1, 0⟩, ⟨2, 0⟩, 0⟩, ⟨⟨0, 0⟩, ⟨1, 0⟩, 0⟩]
    inputs := ⟨[("x", 0)]⟩
    outputs := ⟨[("z", 2)]⟩ }

end Graph

end CipherGraph
