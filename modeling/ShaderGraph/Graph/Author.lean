import ShaderGraph.Graph.Basic

/-!
# Composing graphs

One function for each way to add a node to a graph. They work on any monad that also holds
the graph, and return the new node.

* `Author.texture` without coordinates reads the context value `uv`, and where there is none
  the varying that carries the attribute `uv` (`Author.defaultUv`, added once to a graph).
* `Author.loop` adds the loop and its counters before the body is composed.
* `Author.remapExpansion` adds the arithmetic that a remap node stands for.
-/

namespace ShaderGraph

/-- Composing a graph beside the effects of `m`. -/
abbrev AuthorT (m : Type → Type) := StateT Graph m

namespace Author

variable {m : Type → Type} [Monad m]

/-- Adds a node. -/
def push (node : Node) : AuthorT m NodeId := modifyGet fun g => g.push node

/-- Changes the node at a position. -/
def replace (id : NodeId) (node : Node) : AuthorT m Unit := modify fun g => g.replace id node

/-- Names a node in messages. -/
def setLabel (id : NodeId) (label : String) : AuthorT m Unit := modify fun g => g.setLabel id label

/-! ### Leaves -/

/-- A constant. -/
def constant (type : ValueType) (values : List Float) : AuthorT m NodeId :=
  push (.const type values)

/-- A constant of type `float`. -/
def float (v : Float) : AuthorT m NodeId := constant .float [v]

/-- A constant of type `int`. -/
def int (v : Int) : AuthorT m NodeId := constant .int [Float.ofInt v]

/-- A constant of type `uint`. -/
def uint (v : Nat) : AuthorT m NodeId := constant .uint [Float.ofNat v]

/-- A constant of type `bool`. -/
def boolean (v : Bool) : AuthorT m NodeId := constant .bool [if v then 1 else 0]

/-- A constant of type `vec2`. -/
def vec2 (x y : Float) : AuthorT m NodeId := constant .vec2 [x, y]

/-- A constant of type `vec3`. -/
def vec3 (x y z : Float) : AuthorT m NodeId := constant .vec3 [x, y, z]

/-- A constant of type `vec4`. -/
def vec4 (x y z w : Float) : AuthorT m NodeId := constant .vec4 [x, y, z, w]

/-- A uniform with all its properties. -/
def uniformWith (name : String) (type : ValueType) (group : Option String) (update : Cadence)
    (value : List Float32) : AuthorT m NodeId :=
  push (.uniform name type group update value)

/-- A uniform of the default group that is never refreshed. -/
def uniform (name : String) (type : ValueType) : AuthorT m NodeId :=
  uniformWith name type none .none []

/-- A vertex attribute. -/
def meshAttribute (name : String) (type : Option ValueType) : AuthorT m NodeId :=
  push (.meshAttribute name type)

/-- A varying with all its properties. -/
def varyingWith (node : NodeId) (name : Option String) (interpolation : Interpolation)
    (sampling : Option Sampling) : AuthorT m NodeId :=
  push (.varying node name interpolation sampling)

/-- A varying with perspective interpolation. -/
def varying (node : NodeId) (name : Option String) : AuthorT m NodeId :=
  varyingWith node name .perspective none

/-- A variable of a stage that starts without a value. -/
def property (name : String) (type : ValueType) : AuthorT m NodeId := push (.property name type)

/-- A built-in input. -/
def builtin (value : Builtin) : AuthorT m NodeId := push (.builtin value)

/-- The value of a key in the enclosing contexts. -/
def contextValue (key : String) (fallback : Option NodeId) : AuthorT m NodeId :=
  push (.contextValue key fallback)

/-- The varying that carries the attribute `uv`; it is added to a graph once. -/
def defaultUv : AuthorT m NodeId := do
  match (← get).defaultUv with
  | some id => return id
  | none =>
    let uv ← meshAttribute "uv" (some .vec2)
    let id ← varying uv (some "uv")
    modify fun g => { g with defaultUv := some id }
    return id

/-- A texture sample; see the head of the file for the coordinates. -/
def texture (name : String) (uv : Option NodeId) : AuthorT m NodeId := do
  match uv with
  | some uv => push (.texture name uv none)
  | none =>
    let fallback ← defaultUv
    let uv ← contextValue "uv" (some fallback)
    push (.texture name uv none)

/-- A texture sample at an explicit level. -/
def textureLevel (name : String) (uv level : NodeId) : AuthorT m NodeId :=
  push (.texture name uv (some level))

/-- A storage buffer. -/
def storageBuffer (name : String) (element : ValueType) (count : Option UInt32)
    (access : Access) : AuthorT m NodeId :=
  push (.storageBuffer name element count access)

/-! ### Variables -/

/-- A variable. -/
def toVar (node : NodeId) (name : Option String) : AuthorT m NodeId := push (.var node name false)

/-- A variable that is never assigned. -/
def toConst (node : NodeId) (name : Option String) : AuthorT m NodeId := push (.var node name true)

/-- An assignment. -/
def assign (target value : NodeId) : AuthorT m NodeId := push (.assign target value none)

/-- A compound assignment. -/
def assignOp (target : NodeId) (op : BinaryOp) (value : NodeId) : AuthorT m NodeId :=
  push (.assign target value (some op))

/-! ### Expressions -/

/-- A binary operator. -/
def op (op : BinaryOp) (left right : NodeId) : AuthorT m NodeId := push (.operator op left right)

/-- A unary operator. -/
def unary (op : UnaryOp) (node : NodeId) : AuthorT m NodeId := push (.unary op node)

/-- A call of a math method. -/
def math (method : MathMethod) (args : List NodeId) : AuthorT m NodeId := push (.math method args)

/-- A choice of components. -/
def split (node : NodeId) (components : String) : AuthorT m NodeId := push (.split node components)

/-- A vector joined from parts. -/
def join (nodes : List NodeId) : AuthorT m NodeId := push (.join nodes none)

/-- A vector of a given type joined from parts. -/
def joinAs (type : ValueType) (nodes : List NodeId) : AuthorT m NodeId :=
  push (.join nodes (some type))

/-- An explicit conversion. -/
def convert (node : NodeId) (target : ValueType) : AuthorT m NodeId :=
  push (.convert node target)

/-- A linear map from one range to another. -/
def remap (node inLow inHigh outLow outHigh : NodeId) : AuthorT m NodeId :=
  push (.remap node inLow inHigh outLow outHigh)

/-- The arithmetic of a remap:
`(node - inLow) / (inHigh - inLow) * (outHigh - outLow) + outLow`. -/
def remapExpansion (node inLow inHigh outLow outHigh : NodeId) : AuthorT m NodeId := do
  let offset ← op .sub node inLow
  let inRange ← op .sub inHigh inLow
  let t ← op .div offset inRange
  let outRange ← op .sub outHigh outLow
  let scaled ← op .mul t outRange
  op .add scaled outLow

/-! ### Control flow -/

/-- A choice between two values. -/
def select (condition thenNode elseNode : NodeId) : AuthorT m NodeId :=
  push (.conditional condition thenNode (some elseNode))

/-- A statement under a condition. -/
def ifThen (condition thenNode : NodeId) : AuthorT m NodeId :=
  push (.conditional condition thenNode none)

/-- A loop; `body` receives one counter for each level and returns the node of the body. -/
def loop (params : List (LoopParam NodeId)) (body : List NodeId → AuthorT m NodeId) :
    AuthorT m NodeId := do
  let node ← push (.loop params none)
  let counters ← (List.range params.length).mapM fun i => push (.loopIndex node i)
  let body ← body counters
  modify fun g => g.closeLoop node body
  return node

/-- A jump inside a loop. -/
def jump (j : Jump) : AuthorT m NodeId := push (.jump j)

/-- Statements in sequence and a value after them. -/
def stack (nodes : List NodeId) (output : Option NodeId) : AuthorT m NodeId :=
  push (.stack nodes output)

/-! ### Aggregates -/

/-- A struct layout. -/
def structType (name : String) (members : List Member) : AuthorT m NodeId :=
  push (.structType name members)

/-- A struct value. -/
def struct (layout : NodeId) (values : List NodeId) : AuthorT m NodeId :=
  push (.struct layout values)

/-- An array value. -/
def array (element : ValueType) (values : List NodeId) : AuthorT m NodeId :=
  push (.array element values)

/-- A member of a struct value. -/
def member (node : NodeId) (name : String) : AuthorT m NodeId := push (.member node name)

/-- An element of an array, a vector or a matrix. -/
def index (node i : NodeId) : AuthorT m NodeId := push (.index node i)

/-! ### Scopes and calls -/

/-- A node that sees further context values. -/
def context (node : NodeId) (values : List (String × NodeId)) : AuthorT m NodeId :=
  push (.context node values)

/-- A node in a cache scope. -/
def cache (node : NodeId) (parent : Bool) : AuthorT m NodeId := push (.cache node parent)

/-- A native function. -/
def nativeFunction (source : String) (dialect : Dialect) (includes : List FunctionId) :
    AuthorT m FunctionId :=
  modifyGet fun g => g.addFunction ⟨source, dialect, includes⟩

/-- A call of a native function. -/
def call (function : FunctionId) (args : List NodeId) : AuthorT m NodeId :=
  push (.call function args)

/-- A custom node. -/
def custom (c : Custom) : AuthorT m NodeId := push (.custom c)

end Author

end ShaderGraph
