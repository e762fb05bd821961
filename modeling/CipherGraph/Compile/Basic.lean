import CipherGraph.Compile.Lowering
import CipherGraph.Compile.Requirements
import CipherGraph.Graph.Record
import CipherGraph.Signature

/-! # Compilation

Validates, types, lowers and analyses a graph for one scheme. The graph handed in stays
as it is; the compiled one draws new ids from the same space.
-/

namespace CipherGraph

structure CompileOptions where
  scheme : SchemeKind
  scaleBits : Nat
deriving DecidableEq, Repr

namespace CompileOptions

def defaultScaleBits : Nat := 60

def ofScheme : SchemeKind → CompileOptions
  | .ckks => ⟨.ckks, defaultScaleBits⟩
  | scheme => ⟨scheme, 0⟩

/-- Only the approximate scheme has a scale to set. -/
def withScaleBits (o : CompileOptions) (scaleBits : Nat) : CompileOptions :=
  if o.scheme = .ckks then { o with scaleBits } else o

end CompileOptions

structure CompiledGraph where
  scheme : SchemeKind
  graph : Graph
  types : Typing
  signature : Signature
  requirements : KeyRequirements
  report : LoweringReport

structure CompiledGroup where
  name : String
  scheme : SchemeKind
  members : OrderedMap String CompiledGraph
  requirements : KeyRequirements

/-- Compilation hands out ids, also when it fails. -/
abbrev Compiling (α : Type) := Allocating CompileError α

def Compiling.ofGraph {α : Type} (r : Except GraphError α) : Compiling α :=
  match r with
  | .ok a => return a
  | .error e => throw (.graph e)

namespace Graph

def inputEncoding (o : CompileOptions) (type : ValueClass) : InputEncoding :=
  ⟨type, if type = .raw then 0 else o.scaleBits, 0⟩

def signature (g : Graph) (t : Typing) (o : CompileOptions) : Except GraphError Signature := do
  let inputs ← g.inputs.entries.mapM fun (name, id) => do
    return (name, inputEncoding o (← t.of id))
  let outputs ← g.outputs.entries.mapM fun (name, id) => do return (name, ← t.of id)
  return ⟨g.width, .ofList inputs, .ofList outputs⟩

/-- Lowers within a computation that hands out ids. -/
def lowered (g : Graph) (t : Typing) (o : LoweringOptions) :
    Compiling (Graph × LoweringReport) := do
  let (result, r) := g.lower t o (← get)
  set r.counters
  match result with
  | .ok () => return (r.graph, r.report)
  | .error e => throw e

def compile (g : Graph) (o : CompileOptions) : Compiling CompiledGraph := do
  match g.validate with
  | [] =>
    let first ← Compiling.ofGraph g.inferTypes
    let (lowered, report) ← g.lowered first ⟨o.scheme, o.scaleBits⟩
    let graph := lowered.removeDead.2
    let types ← Compiling.ofGraph graph.inferTypes
    let requirements ← Compiling.ofGraph (graph.requirements types)
    let signature ← Compiling.ofGraph (graph.signature types o)
    return ⟨o.scheme, graph, types, signature, requirements, report⟩
  | faults => throw (.typeFaults faults)

end Graph

namespace CompiledGroup

def add (c : CompiledGroup) (name : String) (g : CompiledGraph) : CompiledGroup :=
  { c with
    members := c.members.insert name g
    requirements := c.requirements.union g.requirements }

/-- The record of the lowered members; the next id is the largest any of them would hand out. -/
def toRecord (c : CompiledGroup) (counters : IdCounters) : GroupRecord :=
  let members := c.members.values.map (·.graph.toRecord counters)
  ⟨c.name, (members.map (·.next)).foldl max 0, members⟩

end CompiledGroup

def Group.compile (gr : Group) (o : CompileOptions) : Compiling CompiledGroup := do
  Compiling.ofGraph gr.checkInputs
  gr.graphs.foldlM (fun c g => do return c.add g.name (← g.compile o))
    ⟨gr.name, o.scheme, ∅, .none⟩

end CipherGraph
