import CipherGraph.Command.Outcome

/-! # The program

Commands on the disk, with the environment's variables and fresh randomness.
-/

namespace CipherGraph

/-- System error numbers come with either sign. -/
def FileFault.ofError : IO.Error → FileFault
  | .noFileOrDirectory .. => .notFound
  | .alreadyExists .. => .taken
  | .inappropriateType _ number _ =>
    if number = 21 || number = -21 then .isDirectory else .notDirectory
  | .invalidArgument _ number text =>
    if number = 36 || number = -36 then .nameTooLong else .other text
  | error => .other (toString error)

def orFault {α : Type} (action : IO α) : IO (Except FileFault α) := do
  try
    return .ok (← action)
  catch error => return .error (.ofError error)

instance : World IO where
  readFile path := do
    return (← orFault (IO.FS.readBinFile path)).map fun content => content.data.toList
  writeFile path content := orFault (IO.FS.writeBinFile path ⟨content.toArray⟩)
  makeDirectories path := orFault (IO.FS.createDirAll path)
  environment := SchemeConfig.variableNames.filterMapM fun name => do
    return (← IO.getEnv name).map fun value => (name, value)
  random := return ⟨(← IO.getRandomBytes 32).data.toList⟩
  noise := return fun _ => .silent

end CipherGraph

open CipherGraph

def main (arguments : List String) : IO UInt32 := do
  let work : IO Outcome := (Arguments.request arguments).perform
  let outcome ← work
  (← IO.getStdout).write ⟨outcome.stdout.toArray⟩
  (← IO.getStderr).putStr outcome.stderr
  return outcome.exitCode.toUInt32
