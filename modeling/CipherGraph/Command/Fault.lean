import CipherGraph.Blob.Error
import CipherGraph.Files

/-! # Command faults

A command stops on a fault of its files, of the graph it is given, or of the keys and values in
its blobs. The three kinds have exit codes of their own.
-/

namespace CipherGraph

inductive CommandFault where
  | unread (path : String) (fault : FileFault)
  | unwritten (path : String) (fault : FileFault)
  | unmade (path : String) (fault : FileFault)
  | notRecord (path : String)
  | notValuation (path : String)
  | rejected (error : CompileError)
  | graph (error : GraphError)
  | exec (error : ExecError)
  | blob (error : BlobError)
  | noKeys

namespace CommandFault

def exitCode : CommandFault → Nat
  | .graph _ | .exec _ | .blob _ | .noKeys => 1
  | .rejected _ => 2
  | .unread .. | .unwritten .. | .unmade .. | .notRecord _ | .notValuation _ => 3

def isUnparsable : CommandFault → Bool
  | .notRecord _ | .notValuation _ => true
  | .exec error => error.isUnparsable
  | .blob error => error.isUnparsable
  | _ => false

def message : CommandFault → String
  | .unread path fault => s!"failed to read '{path}': " ++ fault.message
  | .unwritten path fault => s!"failed to write '{path}': " ++ fault.message
  | .unmade path fault => s!"failed to create '{path}': " ++ fault.message
  | .notRecord path => s!"'{path}' is not a graph record"
  | .notValuation path => s!"'{path}' is not a valuation"
  | .rejected (.typeFaults faults) =>
    "graph failed validation with " ++ toString faults.length ++ " error(s):" ++
      String.join (faults.map fun f => "\n  - " ++ f.message)
  | .rejected error => error.message
  | .graph error => error.message
  | .exec error => error.message
  | .blob error => error.message
  | .noKeys => "bundle can neither encrypt nor decrypt"

end CommandFault

end CipherGraph
