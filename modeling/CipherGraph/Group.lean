import CipherGraph.Graph.Build
import CipherGraph.Graph.Replacement

/-! # Groups

Graphs that draw from one id space and whose inputs have names apart, so that one key
pair and one valuation serve them all.
-/

namespace CipherGraph

structure Group where
  name : String
  space : IdSpace
  members : OrderedMap String Graph

namespace Group

def create (name : String) (space : IdSpace) : Group := ⟨name, space, ∅⟩

def graphs (gr : Group) : List Graph := gr.members.values

def member? (gr : Group) (name : String) : Except GraphError Graph :=
  match gr.members.find? name with
  | some g => .ok g
  | none => .error (.memberNotFound name)

def newGraph (gr : Group) (name : String) (width : Nat) : Except GraphError Group := do
  if gr.members.contains name then throw (.duplicateMember name)
  let g ← Graph.create name width gr.space
  return { gr with members := gr.members.insert name g }

/-- The first input of `g` that a member has too. -/
def sharedInput? (gr : Group) (g : Graph) : Option String :=
  g.inputs.keys.find? fun name => gr.graphs.any (·.inputs.contains name)

/-- The smallest id of `g` that a member has too. -/
def sharedId? (gr : Group) (g : Graph) : Option NodeId :=
  g.ids.find? fun id => gr.graphs.any (·.contains id)

/-- Takes over a graph built elsewhere. Ids are compared only if it has a space of its own,
which it then leaves for the group's. -/
def addGraph (gr : Group) (g : Graph) : Allocating GraphError Group := do
  if gr.members.contains g.name then throw (.duplicateMember g.name)
  if let some name := gr.sharedInput? g then throw (.inputOverlap name g.name)
  if g.space = gr.space then
    return { gr with members := gr.members.insert g.name g }
  if let some id := gr.sharedId? g then throw (.idCollision id g.name)
  let moved ← liftM (g.rebind gr.space)
  return { gr with members := gr.members.insert g.name moved }

/-- The first input name declared twice, with the member that repeats it. -/
def repeatedInput? : List (String × String) → List String → Option (String × String)
  | [], _ => none
  | (name, graph) :: rest, seen =>
    if name ∈ seen then some (name, graph) else repeatedInput? rest (name :: seen)

/-- Members may gain inputs after joining, so their names are compared again. -/
def checkInputs (gr : Group) : Except GraphError Unit :=
  match repeatedInput? (gr.graphs.flatMap fun g => g.inputs.keys.map (·, g.name)) [] with
  | some (name, graph) => .error (.inputOverlap name graph)
  | none => .ok ()

end Group

end CipherGraph
