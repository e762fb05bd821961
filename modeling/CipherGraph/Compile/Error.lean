import CipherGraph.Graph.Validation
import CipherGraph.Scheme.Kind

/-! # Compilation errors -/

namespace CipherGraph

inductive CompileError where
  | typeFaults (faults : List TypeFault)
  | unsupported (node : NodeId) (op : String) (scheme : SchemeKind)
  | mixedConstants
  | graph (cause : GraphError)
deriving DecidableEq, Repr

namespace CompileError

def message : CompileError → String
  | .typeFaults faults => s!"graph failed validation with {faults.length} error(s)"
  | .unsupported node op scheme =>
    s!"{op} at node {node} has no lowering for the {scheme.name} backend"
  | .mixedConstants => "no scheme fits the graph: byte and real constants are mixed"
  | .graph cause => cause.message

end CompileError

end CipherGraph
