import CipherGraph.Compile.Error
import CipherGraph.Group

/-! # Choosing a scheme

The constants of a graph and its divisions tell which family it is meant for. A group
pools what its members use.
-/

namespace CipherGraph

structure NumericUsage where
  bytes : Bool
  integers : Bool
  reals : Bool
  division : Bool
deriving DecidableEq, Repr

namespace NumericUsage

def none : NumericUsage := ⟨false, false, false, false⟩

def ofOp : Operation → NumericUsage
  | .constant (.byte _) => { none with bytes := true }
  | .constant (.integers _) => { none with integers := true }
  | .constant (.reals _) => { none with reals := true }
  | .arithmetic .div => { none with division := true }
  | _ => none

def union (a b : NumericUsage) : NumericUsage :=
  ⟨a.bytes || b.bytes, a.integers || b.integers, a.reals || b.reals, a.division || b.division⟩

def ofGraph (g : Graph) : NumericUsage := g.nodes.foldl (fun u n => u.union (ofOp n.op)) none

def ofGroup (gr : Group) : NumericUsage := gr.graphs.foldl (fun u g => u.union (ofGraph g)) none

/-- Reals call for the approximate family, which also divides; bytes or divisions for the
gate-level one; integers for the exact one. Without evidence the approximate family serves. -/
def scheme (u : NumericUsage) : Except CompileError SchemeKind :=
  if u.bytes && u.reals then .error .mixedConstants
  else if u.reals then .ok .ckks
  else if u.bytes || u.division then .ok .bitwise
  else if u.integers then .ok .bfv
  else .ok .ckks

end NumericUsage

def Graph.inferScheme (g : Graph) : Except CompileError SchemeKind :=
  (NumericUsage.ofGraph g).scheme

def Group.inferScheme (gr : Group) : Except CompileError SchemeKind :=
  (NumericUsage.ofGroup gr).scheme

end CipherGraph
