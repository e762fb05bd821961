import CipherGraph.Command.Arguments
import CipherGraph.Command.Calculation
import CipherGraph.Command.World
import CipherGraph.Compile.SchemeChoice
import CipherGraph.Json.Pretty

/-! # Running commands

A command reads its files in the order of its options, works on their bytes, and writes only
when the whole result is there.
-/

namespace CipherGraph

namespace Command

section

variable {m : Type → Type} [Monad m] [World m]

def readFile (path : String) : ExceptT CommandFault m Bytes := do
  match ← (World.readFile path : m _) with
  | .ok content => return content
  | .error fault => throw (.unread path fault)

def writeFile (path : String) (content : Bytes) : ExceptT CommandFault m Unit := do
  match ← (World.writeFile path content : m _) with
  | .ok () => return ()
  | .error fault => throw (.unwritten path fault)

def makeDirectories (path : String) : ExceptT CommandFault m Unit := do
  match ← (World.makeDirectories path : m _) with
  | .ok () => return ()
  | .error fault => throw (.unmade path fault)

def orStop {ε α : Type} (fault : ε → CommandFault) (r : Except ε α) : ExceptT CommandFault m α :=
  liftM (r.mapError fault)

def blobScheme (blob : Bytes) : ExceptT CommandFault m SchemeKind := do
  return (← orStop .blob (Envelope.peek blob)).scheme

def configFrom (path : Option String) : ExceptT CommandFault m SchemeConfig := do
  match path with
  | some path =>
    match Json.read? (← readFile path) with
    | some config => return config
    | none => throw (.exec (.configuration .configText))
  | none =>
    let environment ← (World.environment : m _)
    orStop (fun fault => .exec (.configuration (.environment fault)))
      (SchemeConfig.ofEnvironment environment)

def inDirectory (dir name : String) : String :=
  if dir.endsWith "/" then dir ++ name else dir ++ "/" ++ name

def runKeygen (graph : String) (scheme : Option SchemeKind) (config : Option String)
    (scaleBits : Option Nat) (outDir : String) : ExceptT CommandFault m Unit := do
  match (Json.read? (← readFile graph) : Option GraphRecord) with
  | none => throw (.notRecord graph)
  | some record =>
    let restored := (record.restore : Allocating GraphError Graph).run.run .empty
    let g ← orStop .graph restored.1
    let kind ← match scheme with
      | some kind => pure kind
      | none => orStop .rejected g.inferScheme
    let config ← configFrom config
    let options := (CompileOptions.ofScheme kind).withScaleBits (scaleBits.getD config.scaleBits)
    let (compiled, counters) := (g.compile options).run.run restored.2
    let compiled ← orStop .rejected compiled
    let fresh ← (World.random : m _)
    let bundles := (roleBundles kind compiled config fresh).run.run (.empty, counters)
    let bundles ← orStop id bundles.1
    makeDirectories outDir
    bundles.forM fun (name, bundle) => writeFile (inDirectory outDir name) bundle

def runEncrypt (bundle inputs out : String) : ExceptT CommandFault m Unit := do
  let blob ← readFile bundle
  match (Json.read? (← readFile inputs) : Option Valuation) with
  | none => throw (.notValuation inputs)
  | some v =>
    let S := schemeOf (← blobScheme blob)
    let config := SchemeConfig.ofEnvironment (← (World.environment : m _))
    let noise ← (World.noise : m _)
    writeFile out (← orStop id (Calculation.result (encryptWith S blob v config noise)))

def runExecute (bundle inputs out : String) : ExceptT CommandFault m Unit := do
  let blob ← readFile bundle
  let inputs ← readFile inputs
  let S := schemeOf (← blobScheme blob)
  writeFile out (← orStop id (Calculation.result (executeWith S blob inputs)))

/-- What is printed, if the outputs do not go to a file. -/
def runDecrypt (bundle outputs : String) (out : Option String) :
    ExceptT CommandFault m Bytes := do
  let blob ← readFile bundle
  let outputs ← readFile outputs
  let S := schemeOf (← blobScheme blob)
  let text := (toJson (← orStop id (Calculation.result (decryptWith S blob outputs)))).pretty
  match out with
  | some out =>
    writeFile out text
    return []
  | none => return text ++ [10]

def run : Command → ExceptT CommandFault m Bytes
  | .keygen graph scheme config scaleBits outDir => do
    runKeygen graph scheme config scaleBits outDir
    return []
  | .encrypt bundle inputs out => do
    runEncrypt bundle inputs out
    return []
  | .execute bundle inputs out => do
    runExecute bundle inputs out
    return []
  | .decrypt bundle outputs out => runDecrypt bundle outputs out

end

end Command

end CipherGraph
