import ShaderGraph.Builtin
import ShaderGraph.Error.Kind
import ShaderGraph.MathMethod
import ShaderGraph.Operator

/-!
# Nodes

A node of a shader graph says how its value or effect comes from the nodes it refers to.

* `NodeOf ρ μ` is a node whose references are of type `ρ` and whose custom nodes are
  described by `μ`; `map` changes the references.
* `children` lists the references in evaluation order.
* `Custom` describes a node that exists only to be replaced by others. The nodes it brings
  refer to each other by their position among them (`Ref.relative`).
* `Node` is a node in a graph: it refers to others by `NodeId`.
-/

namespace ShaderGraph

/-- The position of a node in its graph. -/
structure NodeId where
  index : Nat
deriving DecidableEq, Repr

/-- A node as messages name it. -/
instance : ToString NodeId := ⟨fun id => "#" ++ toString id.index⟩

/-- The position of a native function in its graph. -/
structure FunctionId where
  index : Nat
deriving DecidableEq, Repr

/-- A member of a struct. -/
structure Member where
  name : String
  type : ValueType
deriving DecidableEq, Repr

/-- An end of the range of a loop. -/
inductive LoopBound (ρ : Type) where
  | value (v : Float)
  | node (id : ρ)

/-- One level of a loop. -/
structure LoopParam (ρ : Type) where
  start : LoopBound ρ
  stop : LoopBound ρ
  step : Float
  /-- The comparison of the counter with `stop`; where there is none, it follows from the
  bounds. -/
  condition : Option BinaryOp
  type : ValueType
  name : Option String

namespace LoopParam

variable {ρ : Type}

/-- The whole numbers from `start` up to `stop`. -/
def range (start stop : Int) : LoopParam ρ :=
  ⟨.value (Float.ofInt start), .value (Float.ofInt stop), 1, none, .int, none⟩

/-- The whole numbers below `n`. -/
def count (n : Int) : LoopParam ρ := range 0 n

/-- The whole numbers below the value of a node. -/
def upTo (stop : ρ) : LoopParam ρ := ⟨.value 0, .node stop, 1, none, .int, none⟩

/-- The comparison in use: the given one, else `>` between constants that descend, else
`<`. -/
def resolvedCondition (p : LoopParam ρ) : BinaryOp :=
  match p.condition with
  | some op => op
  | none =>
    match p.start, p.stop with
    | .value s, .value e => if e < s then .gt else .lt
    | _, _ => .lt

/-- The nodes that bound the range. -/
def children (p : LoopParam ρ) : List ρ :=
  (match p.start with
    | .node id => [id]
    | .value _ => []) ++
  (match p.stop with
    | .node id => [id]
    | .value _ => [])

end LoopParam

/-- A jump inside a loop. -/
inductive Jump where
  /-- Leaves the loop. -/
  | leave
  /-- Goes on with the next round. -/
  | next
deriving DecidableEq, Repr

/-- The keyword of a jump, the same in both dialects. -/
def Jump.keyword : Jump → String
  | .leave => "break"
  | .next => "continue"

/-- A node with references of type `ρ` and custom nodes described by `μ`. -/
inductive NodeOf (ρ μ : Type) where
  | const (type : ValueType) (values : List Float)
  | uniform (name : String) (type : ValueType) (group : Option String) (update : Cadence)
      (value : List Float32)
  | meshAttribute (name : String) (type : Option ValueType)
  | varying (node : ρ) (name : Option String) (interpolation : Interpolation)
      (sampling : Option Sampling)
  | property (name : String) (type : ValueType)
  | builtin (value : Builtin)
  | texture (name : String) (uv : ρ) (level : Option ρ)
  | storageBuffer (name : String) (element : ValueType) (count : Option UInt32)
      (access : Access)
  | var (node : ρ) (name : Option String) (readOnly : Bool)
  | assign (target value : ρ) (op : Option BinaryOp)
  | operator (op : BinaryOp) (left right : ρ)
  | unary (op : UnaryOp) (node : ρ)
  | math (method : MathMethod) (args : List ρ)
  | split (node : ρ) (components : String)
  | join (nodes : List ρ) (type : Option ValueType)
  | convert (node : ρ) (target : ValueType)
  /-- A choice between two values, or a statement under a condition where there is no
  second branch. -/
  | conditional (condition thenNode : ρ) (elseNode : Option ρ)
  | loop (params : List (LoopParam ρ)) (body : Option ρ)
  | loopIndex (loop : ρ) (param : Nat)
  | jump (jump : Jump)
  | stack (nodes : List ρ) (output : Option ρ)
  | structType (name : String) (members : List Member)
  | struct (layout : ρ) (values : List ρ)
  | array (element : ValueType) (values : List ρ)
  | member (node : ρ) (name : String)
  | index (node index : ρ)
  | context (node : ρ) (values : List (String × ρ))
  | contextValue (key : String) (fallback : Option ρ)
  | cache (node : ρ) (parent : Bool)
  | call (function : FunctionId) (args : List ρ)
  | remap (node inLow inHigh outLow outHigh : ρ)
  | custom (custom : μ)

namespace NodeOf

variable {ρ σ μ : Type}

/-- The kind of a node as messages name it. -/
def kindName : NodeOf ρ μ → String
  | const .. => "Const"
  | uniform .. => "Uniform"
  | meshAttribute .. => "Attribute"
  | varying .. => "Varying"
  | property .. => "Property"
  | builtin .. => "Builtin"
  | texture .. => "Texture"
  | storageBuffer .. => "StorageBuffer"
  | var .. => "Var"
  | assign .. => "Assign"
  | operator .. => "Operator"
  | unary .. => "Unary"
  | math .. => "Math"
  | split .. => "Split"
  | join .. => "Join"
  | convert .. => "Convert"
  | conditional .. => "Conditional"
  | loop .. => "Loop"
  | loopIndex .. => "LoopIndex"
  | jump .leave => "Break"
  | jump .next => "Continue"
  | stack .. => "Stack"
  | structType .. => "StructType"
  | struct .. => "Struct"
  | array .. => "Array"
  | member .. => "Member"
  | index .. => "Index"
  | context .. => "Context"
  | contextValue .. => "ContextValue"
  | cache .. => "Cache"
  | call .. => "FunctionCall"
  | remap .. => "Remap"
  | custom .. => "Custom"

/-- Every reference of a node, in evaluation order. -/
def children : NodeOf ρ μ → List ρ
  | const .. | uniform .. | meshAttribute .. | property .. | builtin .. | storageBuffer ..
  | loopIndex .. | jump .. | structType .. | custom .. => []
  | varying node .. | var node .. | unary _ node | split node _ | convert node _
  | member node _ | cache node _ => [node]
  | texture _ uv level => uv :: level.toList
  | assign target value _ => [target, value]
  | operator _ left right => [left, right]
  | math _ args => args
  | join nodes _ => nodes
  | conditional condition thenNode elseNode => condition :: thenNode :: elseNode.toList
  | loop params body => params.flatMap LoopParam.children ++ body.toList
  | stack nodes output => nodes ++ output.toList
  | struct layout values => layout :: values
  | array _ values => values
  | index node i => [node, i]
  | context node values => node :: values.map Prod.snd
  | contextValue _ fallback => fallback.toList
  | call _ args => args
  | remap node inLow inHigh outLow outHigh => [node, inLow, inHigh, outLow, outHigh]

/-- Whether the node is replaced by others before a build. -/
def isExpandable : NodeOf ρ μ → Bool
  | remap .. | custom .. => true
  | _ => false

/-- Whether the value of the node is bound to a name when it is referred to more than
once. -/
def isTemp : NodeOf ρ μ → Bool
  | operator .. | unary .. | math .. | join .. | convert .. | conditional .. | texture ..
  | struct .. | array .. | call .. => true
  | _ => false

/-- A loop bound with its reference changed. -/
def mapBound (f : ρ → σ) : LoopBound ρ → LoopBound σ
  | .value v => .value v
  | .node id => .node (f id)

/-- A loop level with its references changed. -/
def mapParam (f : ρ → σ) (p : LoopParam ρ) : LoopParam σ :=
  ⟨mapBound f p.start, mapBound f p.stop, p.step, p.condition, p.type, p.name⟩

/-- The node with its references changed. -/
def map (f : ρ → σ) : NodeOf ρ μ → NodeOf σ μ
  | const type values => const type values
  | uniform name type group update value => uniform name type group update value
  | meshAttribute name type => meshAttribute name type
  | varying node name interpolation sampling => varying (f node) name interpolation sampling
  | property name type => property name type
  | builtin value => builtin value
  | texture name uv level => texture name (f uv) (level.map f)
  | storageBuffer name element count access => storageBuffer name element count access
  | var node name readOnly => var (f node) name readOnly
  | assign target value op => assign (f target) (f value) op
  | operator op left right => operator op (f left) (f right)
  | unary op node => unary op (f node)
  | math method args => math method (args.map f)
  | split node components => split (f node) components
  | join nodes type => join (nodes.map f) type
  | convert node target => convert (f node) target
  | conditional condition thenNode elseNode =>
    conditional (f condition) (f thenNode) (elseNode.map f)
  | loop params body => loop (params.map (mapParam f)) (body.map f)
  | loopIndex l param => loopIndex (f l) param
  | jump j => jump j
  | stack nodes output => stack (nodes.map f) (output.map f)
  | structType name members => structType name members
  | struct layout values => struct (f layout) (values.map f)
  | array element values => array element (values.map f)
  | member node name => member (f node) name
  | index node i => index (f node) (f i)
  | context node values => context (f node) (values.map fun v => (v.1, f v.2))
  | contextValue key fallback => contextValue key (fallback.map f)
  | cache node parent => cache (f node) parent
  | call function args => call function (args.map f)
  | remap node inLow inHigh outLow outHigh =>
    remap (f node) (f inLow) (f inHigh) (f outLow) (f outHigh)
  | custom c => custom c

end NodeOf

/-- A reference inside the description of a custom node. -/
inductive Ref where
  /-- A node of the graph. -/
  | absolute (id : NodeId)
  /-- The node at this place among the nodes that the custom node brings. -/
  | relative (offset : Nat)
deriving DecidableEq, Repr

/-- The node that a reference means, when the nodes brought along start at `base`. -/
def Ref.resolve (base : Nat) : Ref → NodeId
  | .absolute id => id
  | .relative offset => ⟨base + offset⟩

mutual

/-- The description of a node that is replaced by others. -/
inductive Custom where
  | mk (name : String) (update updateBefore : Cadence) (expansion : Expansion)

/-- What takes the place of a custom node. -/
inductive Expansion where
  /-- Nothing: the expansion fails. -/
  | refuse (kind : ErrorKind) (message : String)
  /-- A new custom node of the same description. -/
  | again
  /-- One of some nodes that are added to the graph, or a node that is there already. -/
  | subgraph (nodes : List (NodeOf Ref Custom × Option String)) (result : Ref)

end

namespace Custom

/-- The name of a custom node. -/
def name : Custom → String
  | mk name _ _ _ => name

/-- How often a custom node is refreshed. -/
def update : Custom → Cadence
  | mk _ update _ _ => update

/-- How often a custom node is refreshed ahead of the others. -/
def updateBefore : Custom → Cadence
  | mk _ _ updateBefore _ => updateBefore

/-- What takes the place of a custom node. -/
def expansion : Custom → Expansion
  | mk _ _ _ expansion => expansion

end Custom

/-- A node of a graph. -/
abbrev Node := NodeOf NodeId Custom

namespace Node

/-- The name that messages give a node which has no label of its own. -/
def ownLabel : Node → Option String
  | .uniform name .. | .meshAttribute name _ | .property name _ | .texture name ..
  | .storageBuffer name .. | .structType name _ | .member _ name => some name
  | .var _ name _ | .varying _ name .. => name
  | .split _ components => some components
  | .operator op .. => some op.symbol
  | .math method _ => some method.label
  | .contextValue key _ => some key
  | .custom c => some c.name
  | _ => none

end Node

end ShaderGraph
