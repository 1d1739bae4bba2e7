import ShaderGraph.Graph.Basic
import ShaderGraph.Json.Value

/-!
# Nodes as JSON

The record of a node for tools that show or compare graphs.

* `Node.fields` are the properties of a node; a property that it does not have is `null`.
* `Graph.nodeJson` adds what the graph knows about the node.
-/

namespace ShaderGraph

/-- A node by its position. -/
def NodeId.toJson (id : NodeId) : Json := .nat id.index

/-- Some nodes by their positions. -/
def idsJson (ids : List NodeId) : Json := Json.ofList NodeId.toJson ids

/-- A number. -/
def floatJson (x : Float) : Json := .number (.double x)

/-- An end of the range of a loop. -/
def LoopBound.toJson : LoopBound NodeId → Json
  | .value v => floatJson v
  | .node id => .object [("node", id.toJson)]

/-- An operator, if there is one. -/
def operatorJson : Option BinaryOp → Json := Json.ofOption fun op => .string op.name

/-- A text, if there is one. -/
def textJson : Option String → Json := Json.ofOption .string

/-- One level of a loop. -/
def LoopParam.toJson (p : LoopParam NodeId) : Json :=
  .object
    [("start", p.start.toJson), ("end", p.stop.toJson), ("step", floatJson p.step),
     ("condition", operatorJson p.condition), ("ty", .string p.type.name),
     ("name", textJson p.name), ("resolved", .string p.resolvedCondition.name)]

/-- The properties of a node. -/
def Node.fields : Node → List (String × Json)
  | .const t values => [("ty", .string t.name), ("values", Json.ofList floatJson values)]
  | .uniform name t group update value =>
    [("name", .string name), ("ty", .string t.name), ("group", textJson group),
     ("update", .string update.name),
     ("value", Json.ofList (fun v => .number (.single v)) value)]
  | .meshAttribute name t =>
    [("name", .string name), ("ty", textJson (t.map ValueType.name))]
  | .varying id name interpolation sampling =>
    [("node", id.toJson), ("name", textJson name), ("interpolation", .string interpolation.name),
     ("sampling", textJson (sampling.map Sampling.name))]
  | .property name t => [("name", .string name), ("ty", .string t.name)]
  | .builtin b => [("value", .string b.name)]
  | .texture name uv level =>
    [("name", .string name), ("uv", uv.toJson), ("level", Json.ofOption NodeId.toJson level)]
  | .storageBuffer name element count access =>
    [("name", .string name), ("element", .string element.name),
     ("count", Json.ofOption (fun n => .nat n.toNat) count), ("access", .string access.name)]
  | .var id name readOnly =>
    [("node", id.toJson), ("name", textJson name), ("readOnly", .bool readOnly)]
  | .assign target value op =>
    [("target", target.toJson), ("value", value.toJson), ("op", operatorJson op)]
  | .operator op left right =>
    [("op", .string op.name), ("left", left.toJson), ("right", right.toJson)]
  | .unary op id => [("op", .string op.name), ("node", id.toJson)]
  | .math method args => [("method", .string method.name), ("args", idsJson args)]
  | .split id components => [("node", id.toJson), ("components", .string components)]
  | .join ids t => [("nodes", idsJson ids), ("ty", textJson (t.map ValueType.name))]
  | .convert id target => [("node", id.toJson), ("to", .string target.name)]
  | .conditional condition thenNode elseNode =>
    [("cond", condition.toJson), ("if", thenNode.toJson),
     ("else", Json.ofOption NodeId.toJson elseNode)]
  | .loop params body =>
    [("params", Json.ofList LoopParam.toJson params), ("body", Json.ofOption NodeId.toJson body)]
  | .loopIndex loop param => [("loop", loop.toJson), ("param", .nat param)]
  | .jump _ | .custom _ => []
  | .stack ids output =>
    [("nodes", idsJson ids), ("output", Json.ofOption NodeId.toJson output)]
  | .structType name members =>
    [("name", .string name),
     ("members", Json.ofList (fun m => .array [.string m.name, .string m.type.name]) members)]
  | .struct layout values => [("layout", layout.toJson), ("values", idsJson values)]
  | .array element values => [("element", .string element.name), ("values", idsJson values)]
  | .member id name => [("node", id.toJson), ("name", .string name)]
  | .index id i => [("node", id.toJson), ("index", i.toJson)]
  | .context id values =>
    [("node", id.toJson),
     ("values", Json.ofList (fun v => .array [.string v.1, v.2.toJson]) values)]
  | .contextValue key fallback =>
    [("key", .string key), ("fallback", Json.ofOption NodeId.toJson fallback)]
  | .cache id parent => [("node", id.toJson), ("parent", .bool parent)]
  | .call function args => [("function", .nat function.index), ("args", idsJson args)]
  | .remap id inLow inHigh outLow outHigh =>
    [("node", id.toJson), ("inLow", inLow.toJson), ("inHigh", inHigh.toJson),
     ("outLow", outLow.toJson), ("outHigh", outHigh.toJson)]

/-- The record of the node at a position: its kind, its properties, and what follows from
them. -/
def Graph.nodeJson (g : Graph) (id : NodeId) : Json :=
  match g.get? id with
  | none => .null
  | some n =>
    .object <|
      n.fields ++
      [("k", .string n.kindName), ("children", idsJson n.children),
       ("label", textJson (g.label? id)), ("expandable", .bool n.isExpandable),
       ("temp", .bool n.isTemp)]

end ShaderGraph
