import CipherGraph.Files
import CipherGraph.Random.ChaCha
import CipherGraph.Scheme.Basic

/-! # The world of commands

Files, environment variables and randomness come from a world, so that a command runs on a
tree of files as it does on a disk.
-/

namespace CipherGraph

/-- What commands need from outside. The worlds here draw no noise. -/
class World (m : Type → Type) where
  readFile : String → m (Except FileFault Bytes)
  writeFile : String → Bytes → m (Except FileFault Unit)
  makeDirectories : String → m (Except FileFault Unit)
  environment : m (List (String × String))
  random : m Random
  noise : m (String → Noise)

/-- Files and variables at hand, with randomness that is settled beforehand. -/
structure Scratch where
  tree : FileTree
  environment : List (String × String)
  random : Random

instance : World (StateM Scratch) where
  readFile path := return (← get).tree.read path
  writeFile path content := do
    match (← get).tree.write path content with
    | .ok tree =>
      modify fun s => { s with tree }
      return .ok ()
    | .error fault => return .error fault
  makeDirectories path := do
    let (tree, r) := (← get).tree.makeAll path
    modify fun s => { s with tree }
    return r
  environment := return (← get).environment
  random := return (← get).random
  noise := return fun _ => .silent

end CipherGraph
