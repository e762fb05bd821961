import CipherGraph.Command.Help
import CipherGraph.Command.Run

/-! # Outcomes

A command line ends with what it prints, with a fault of the command, or refused before one ran.
-/

namespace CipherGraph

inductive Outcome where
  | done (printed : Bytes)
  | failed (fault : CommandFault)
  | refused (fault : UsageFault)

def Request.perform {m : Type → Type} [Monad m] [World m] : Request → m Outcome
  | .refused fault => return .refused fault
  | .help topic => return .done (Bytes.ofString topic.text)
  | .run command => do
    match ← command.run.run with
    | .ok printed => return .done printed
    | .error fault => return .failed fault

def UsageFault.message : UsageFault → String
  | .noCommand => "a command is missing"
  | .unknownCommand name => s!"unrecognized command '{name}'"
  | .unexpected argument => s!"unexpected argument '{argument}'"
  | .missingValue option => s!"a value is required for '--{option}'"
  | .invalidValue option value => s!"invalid value '{value}' for '--{option}'"
  | .repeated option => s!"the argument '--{option}' cannot be used multiple times"
  | .missingOption option => s!"the argument '--{option}' is required"

namespace Outcome

def exitCode : Outcome → Nat
  | .done _ => 0
  | .failed fault => fault.exitCode
  | .refused _ => 2

def stdout : Outcome → Bytes
  | .done printed => printed
  | .failed _ | .refused _ => []

def stderr : Outcome → String
  | .done _ => ""
  | .failed fault => "Error: " ++ fault.message ++ "\n"
  | .refused fault => "error: " ++ fault.message ++ "\n\nFor more information, try '--help'.\n"

end Outcome

end CipherGraph
