import ShaderGraph.Document.Basic
import ShaderGraph.Document.Error
import ShaderGraph.Graph.Author

/-!
# From documents to graphs

`Document.lower` turns a document into a graph, the roots of its stages and the options of the
build.

* A node is added once, after what is connected to its inputs; the roots are taken in the order
  of the names of their stages. Nodes that no root refers to are not added.
* An input without a connection takes the number under its name in the parameters, then the
  default of the node where there is one.
* The recursion goes along the connections. The nodes on the way are pairwise different, so it
  is never deeper than there are nodes.
-/

namespace ShaderGraph

/-- What a document describes. -/
structure Lowered where
  graph : Graph
  request : BuildRequest
  options : BuildOptions

/-- A step that adds nodes to a graph and remembers which node of the document became which. -/
abbrev Lower := AuthorT (StateT (OrderedMap String NodeId) (Except DocumentError))

namespace Lower

/-- Ends with a fault. -/
def fail {α : Type} (f : DocumentFault) : Lower α := fun _ _ => .error (.ofFault f)

/-- A step whose faults are met inside something. -/
def within {α : Type} (s : Surrounding) (step : Lower α) : Lower α := fun g m =>
  match step g m with
  | .ok r => .ok r
  | .error e => .error (e.inside s)

/-- What a node of the document became, if it was added. -/
def known? (id : String) : Lower (Option NodeId) := fun g m => .ok ((m.get? id, g), m)

/-- Remembers what a node of the document became. -/
def remember (id : String) (node : NodeId) : Lower Unit := fun g m => .ok (((), g), m.put id node)

/-! ### Parameters -/

variable (n : DocumentNode)

/-- A text that must be there. -/
def param (key : String) : Lower String :=
  match n.text? key with
  | some s => return s
  | none => fail (.missingParam key)

/-- A type that may be missing. -/
def typeParam? : Lower (Option ValueType) :=
  match n.text? "type" with
  | none => return none
  | some name =>
    match ValueType.ofName? name with
    | some t => return some t
    | none => fail (.unknownType name)

/-- A type that must be there. -/
def typeParam : Lower ValueType := do
  match ← typeParam? n with
  | some t => return t
  | none => fail (.missingParam "type")

/-- The numbers of a list. -/
def numbers (key : String) : List Json → Lower (List Float)
  | [] => return []
  | v :: rest =>
    match v.asFloat? with
    | some x => return x :: (← numbers key rest)
    | none => fail (.notNumbers key v)

/-- A number or a list of numbers; nothing is the empty list. -/
def valuesParam (key : String) : Lower (List Float) :=
  match n.params.get? key with
  | none => return []
  | some (.array items) => numbers key items
  | some v =>
    match v.asFloat? with
    | some x => return [x]
    | none => fail (.notNumber key)

/-- A cadence; capitals do not matter. -/
def cadenceParam : Lower Cadence :=
  match n.text? "update" with
  | none => return .none
  | some name =>
    let name := String.ofList (name.toList.map Char.toLower)
    match Cadence.ofName? name with
    | some c => return c
    | none => fail (.unknownCadence name)

/-- An interpolation. -/
def interpolationParam : Lower Interpolation :=
  match n.params.get? "interpolation" with
  | none => return .perspective
  | some v =>
    match v.asChoice? Interpolation.ofName? with
    | some i => return i
    | none => fail .interpolation

/-- The operator under a key. -/
def operatorParam : Lower BinaryOp := do
  let name ← param n "op"
  match BinaryOp.read? name with
  | some op => return op
  | none => fail (.unknownOperator name)

/-- The math method under a key. -/
def methodParam : Lower MathMethod := do
  let name ← param n "method"
  match MathMethod.read? name with
  | some m => return m
  | none => fail (.unknownMethod name)

/-- The built-in input under a key. -/
def builtinParam : Lower Builtin := do
  let name ← param n "value"
  match Builtin.read? name with
  | some b => return b
  | none => fail (.unknownBuiltin name)

/-! ### Inputs

`input` gives what is connected to an input of the node. -/

variable (input : String → Lower (Option NodeId))

/-- An input that must be connected. -/
def required (key : String) : Lower NodeId := do
  match ← input key with
  | some id => return id
  | none => fail (.missingInput key)

/-- An input that is connected or has a number. -/
def operand? (key : String) (default : Option Float) : Lower (Option NodeId) := do
  match ← input key with
  | some id => return some id
  | none =>
    match (n.number? key).or default with
    | some v => return some (← Author.float v)
    | none => return none

/-- An input that must be connected or have a number. -/
def operand (key : String) (default : Option Float) : Lower NodeId := do
  match ← operand? n input key default with
  | some id => return id
  | none => fail (.missingInput key)

/-! ### Nodes -/

/-- The inputs of a math method. -/
def mathInputs : List String := ["a", "b", "c"]

/-- The inputs of a join. -/
def joinInputs : List String := ["x", "y", "z", "w"]

/-- Adds a constant. -/
def addConst : Lower NodeId := do
  let type := (← typeParam? n).getD .float
  Author.constant type (← valuesParam n "value")

/-- Adds a uniform. -/
def addUniform : Lower NodeId := do
  let name := (n.text? "name").getD n.id
  let type := (← typeParam? n).getD .float
  let value ← valuesParam n "value"
  let update ← cadenceParam n
  Author.uniformWith name type (n.text? "group") update (value.map Float.toFloat32)

/-- Adds a varying. -/
def addVarying : Lower NodeId := do
  let source ← required input "node"
  let interpolation ← interpolationParam n
  Author.varyingWith source (n.text? "name") interpolation none

/-- Adds a variable. -/
def addVar : Lower NodeId := do
  let source ← required input "node"
  if (n.flag? "readOnly").getD false then Author.toConst source (n.text? "name")
  else Author.toVar source (n.text? "name")

/-- Adds a join. -/
def addJoin : Lower NodeId := do
  let parts ← joinInputs.mapM fun key => operand? n input key none
  let parts := parts.filterMap id
  if parts.isEmpty then fail .emptyJoin
  else match ← typeParam? n with
    | some type => Author.joinAs type parts
    | none => Author.join parts

/-- Adds a texture sample. -/
def addTexture : Lower NodeId := do
  let name ← param n "name"
  let uv ← input "uv"
  match ← input "level", uv with
  | none, uv => Author.texture name uv
  | some level, some uv => Author.textureLevel name uv level
  | some _, none => fail .levelWithoutUv

/-- Adds a remap of the unit interval, where nothing else is given. -/
def addRemap : Lower NodeId := do
  let value ← required input "value"
  let inLow ← operand n input "inLow" (some 0)
  let inHigh ← operand n input "inHigh" (some 1)
  let outLow ← operand n input "outLow" (some 0)
  let outHigh ← operand n input "outHigh" (some 1)
  Author.remap value inLow inHigh outLow outHigh

/-- Adds a node after its inputs. -/
def addNode : Lower NodeId := do
  match n.kind with
  | "Const" => addConst n
  | "Uniform" => addUniform n
  | "Attribute" => Author.meshAttribute (← param n "name") (← typeParam? n)
  | "Varying" => addVarying n input
  | "Property" => Author.property (← param n "name") (← typeParam n)
  | "Var" => addVar n input
  | "Operator" =>
    let op ← operatorParam n
    Author.op op (← operand n input "a" none) (← operand n input "b" none)
  | "Math" =>
    let method ← methodParam n
    Author.math method
      (← (mathInputs.take method.arity).mapM fun key => operand n input key none)
  | "Split" => Author.split (← required input "node") (← param n "components")
  | "Join" => addJoin n input
  | "Convert" => Author.convert (← required input "node") (← typeParam n)
  | "Select" =>
    Author.select (← required input "cond") (← operand n input "a" none)
      (← operand n input "b" none)
  | "Texture" => addTexture n input
  | "Builtin" => Author.builtin (← builtinParam n)
  | "Remap" => addRemap n input
  | kind => fail (.unknownKind kind)

end Lower

namespace Document

/-! ### Whole documents -/

variable (d : Document)

/-- Adds the node with the given name, unless it was added before. `path` holds the nodes whose
inputs are being added; there are at least `fuel` others. -/
def lowerNode : Nat → List String → String → Lower NodeId
  | fuel, path, id => do
    match ← Lower.known? id with
    | some node => return node
    | none =>
      match d.node? id with
      | none => Lower.fail (.missingNode id)
      | some n =>
        if path.contains id then Lower.fail (.cycle id)
        else match fuel with
          | 0 => Lower.fail (.cycle id)
          | fuel + 1 =>
            let input (key : String) : Lower (Option NodeId) :=
              match d.incoming? id key with
              | some c => return some (← lowerNode fuel (id :: path) c.source.node)
              | none => return none
            let node ← Lower.within (.node id n.kind) (Lower.addNode n input)
            Author.setLabel node id
            Lower.remember id node
            return node

/-- Adds the root of a stage, if the document names one. -/
def lowerOutput (stage : Stage) : Lower (Option NodeId) :=
  match d.outputs.get? stage.name with
  | none => return none
  | some id =>
    return some (← Lower.within (.output stage id) (d.lowerNode d.nodes.length [] id))

/-- Adds the roots of the stages. -/
def lowerOutputs : Lower BuildRequest := do
  let compute ← d.lowerOutput .compute
  let fragment ← d.lowerOutput .fragment
  let vertex ← d.lowerOutput .vertex
  return ⟨vertex, fragment, compute⟩

/-- The connections with an end at no node, each with that end. -/
def looseEnds : List (String × String) :=
  d.connections.flatMap fun c =>
    ([c.source, c.target].filter fun p => (d.node? p.node).isNone).map fun p => (c.id, p.node)

/-- What is wrong with the document as a whole. -/
def fault? : Option DocumentFault :=
  if (d.nodes.map DocumentNode.id).Nodup then
    d.looseEnds.head?.map fun e => .looseConnection e.1 e.2
  else some .repeatedNode

/-- The graph, the roots and the options that the document describes. -/
def lower : Except DocumentError Lowered :=
  match d.fault? with
  | some f => .error (.ofFault f)
  | none =>
    match d.lowerOutputs (Graph.empty Workspace.firstUid) .empty with
    | .error e => .error e
    | .ok ((request, graph), _) =>
      if request.roots.isEmpty then .error (.ofFault .noOutput)
      else .ok ⟨graph, request, d.options.getD .standard⟩

end Document

end ShaderGraph
