import CipherGraph.Compile.Basic
import CipherGraph.Compile.SchemeChoice
import CipherGraph.View.Text

/-! # Views of graphs

JSON for people who inspect graphs and what compilation makes of them.
-/

namespace CipherGraph

/-- The view tells whether arithmetic commutes. -/
def Operation.view (o : Operation) : Json :=
  let commutes := match o with
    | .arithmetic op => some op.isCommutative
    | _ => none
  .array [textView o, toJson o.name, toJson o.arity, toJson commutes]

def Constant.view (c : Constant) : Json :=
  .array [textView c, toJson c.length, toJson c.isEmpty, toJson c.containsZero]

namespace Graph

def usesView (g : Graph) (id : NodeId) : Json := .array ((g.uses id).map pairView)

def nodeView (g : Graph) (n : Node) : Json :=
  .array [toJson n.id, textView n.op, toJson (g.operands n.id), g.usesView n.id]

/-- How far the ids have come and how many nodes there are. -/
def extent (g : Graph) (counters : IdCounters) : List (String × Json) :=
  [("next", toJson (counters.peek g.space)), ("count", toJson g.nodeCount)]

def view (g : Graph) (counters : IdCounters) : Json :=
  let output (name : String) (id : NodeId) : Json :=
    .array [toJson name, toJson id, toJson (g.outputSource? name)]
  Json.ofRecord ([("name", toJson g.name), ("width", toJson g.width),
    ("inputs", .array (g.inputs.entries.map pairView)),
    ("outputs", .array (g.outputs.entries.map fun (name, id) => output name id)),
    ("nodes", .array (g.nodes.map g.nodeView))] ++ g.extent counters)

def lookupView (g : Graph) (name : String) : Json :=
  Json.ofRecord
    [("input", toJson (g.inputs.find? name)), ("output", toJson (g.outputs.find? name)),
      ("source", toJson (g.outputSource? name))]

end Graph

/-- Ids ascend. -/
def Typing.view (t : Typing) : Json :=
  let entries := t.entries.mergeSort fun a b => a.1 ≤ b.1
  .array (entries.map fun (id, type) => .array [toJson id, toJson type.name])

def LoweringReport.view (r : LoweringReport) : Json :=
  Json.ofRecord
    [("encodes", toJson r.encodesInserted), ("commuted", toJson r.commuted),
      ("subs", toJson r.subsReplaced), ("unchanged", toJson (decide (r = .unchanged)))]

def NumericUsage.view (u : NumericUsage) : List (String × Json) :=
  [("bytes", toJson u.bytes), ("ints", toJson u.integers), ("floats", toJson u.reals),
    ("division", toJson u.division)]

def CompiledGraph.view (c : CompiledGraph) (counters : IdCounters) : List (String × Json) :=
  [("scheme", toJson c.scheme.name), ("graph", c.graph.view counters), ("types", c.types.view),
    ("signature", textView c.signature), ("requirements", textView c.requirements),
    ("report", c.report.view)]

def Group.view (gr : Group) (counters : IdCounters) : Json :=
  Json.ofRecord
    [("name", toJson gr.name), ("next", toJson (counters.peek gr.space)),
      ("len", toJson gr.members.size), ("empty", toJson (gr.members.size == 0)),
      ("shared", toJson (gr.graphs.map fun g => decide (g.space = gr.space))),
      ("members", toJson (gr.graphs.map (·.view counters)))]

end CipherGraph
