import ShaderGraph.Proofs.MachineTypes

/-!
# Generated code on a machine

The steps that turn one kind of node into code, with those for the nodes below taken from a
`Machine.Generator`. Each does what the step of a build does.
-/

namespace ShaderGraph.Machine

open Build

/-- How nodes are generated on a machine. -/
structure Generator where
  emit : NodeId → Step (Option Expr)
  place : NodeId → Step (Expr × ValueType)

namespace Generator

/-- The value of a node as one of type `target`. -/
def value (g : Generator) (id : NodeId) (target : ValueType) : Step Expr := do
  let id ← resolve id
  located id do
    let e ← g.emit id
    let type ← typeOf id
    match e with
    | some e =>
      if type = .void then fail (TypeError.noValue target)
      ofExcept (e.coerce type target)
    | none => fail (TypeError.noValue target)

/-- A node for its statements only. -/
def statement (g : Generator) (id : NodeId) : Step Unit := discard <| g.emit id

/-- The values of some nodes, each as one of a type. -/
def values (g : Generator) (ids : List (NodeId × ValueType)) : Step (List Expr) :=
  ids.mapM fun v => g.value v.1 v.2

end Generator

/-! ### Values -/

/-- The value of a node that `step` computes; it is bound to a name when the node is referred to
more than once. -/
def buildTemp (id : NodeId) (step : Step (Option Expr)) : Step (Option Expr) := do
  match ← boundName? id with
  | some name => return some (localName name)
  | none =>
    let e ← step
    let type ← typeOf id
    match e with
    | none => return none
    | some e =>
      if type = .void || (← usage id) ≤ 1 then return some e
      let name ← declareTemp type (some e) .immutable
      bindValue id name
      return some (localName name)

/-- Writes a varying in the vertex program, unless that has happened. -/
def writeVarying (g : Generator) (id : NodeId) (v : VaryingEntry) : Step Unit := do
  if v.location.isSome then return
  inStage .vertex do
    let e ← g.value v.source v.type
    addStatement (.assign (.reference (.varying .vertex v.name)) e)
    modifyHere fun b => { b with varyings := appendNew b.varyings id }
  locateVarying id v

/-- A varying. The fragment program declares it as an input. -/
def buildVarying (g : Generator) (id source : NodeId) (name : Option String)
    (interpolation : Interpolation) (sampling : Option Sampling) : Step Expr := do
  let stage ← stage
  if stage = .compute then fail ScopeError.varyingInCompute
  let v ← registerVarying id source name interpolation sampling
  writeVarying g id v
  if stage = .fragment then modifyHere fun b => { b with varyings := appendNew b.varyings id }
  return .reference (.varying stage v.name)

/-- The level of a texture sample. -/
def buildLevel (g : Generator) (level : Option NodeId) : Step (Option Expr) := do
  match level with
  | some level => return some (← g.value level .float)
  | none => return if (← stage) = .fragment then none else some (.literal .float 0)

/-- A texture sample. -/
def buildTexture (g : Generator) (name : String) (uv : NodeId) (level : Option NodeId) :
    Step Expr := do
  let uv ← g.value uv .vec2
  let level ← buildLevel g level
  let t ← useTexture name
  return .sample t.name t.sampler uv level

/-- A binary operator. -/
def buildOperator (g : Generator) (op : BinaryOp) (left right : NodeId) : Step Expr := do
  let l ← typeOf left
  let r ← typeOf right
  let result ← ofExcept (op.resultType l r)
  let targets := op.operandTypes l r result
  let left ← g.value left targets.1
  let right ← g.value right targets.2
  if op = .rem && result.scalarKind = some .float then return .remainder left right
  return .operator op left right

/-- A unary operator. -/
def buildUnary (g : Generator) (op : UnaryOp) (operand : NodeId) : Step (Option Expr) := do
  discard <| ofExcept (op.resultType (← typeOf operand))
  return (← g.emit operand).map (Expr.unary op)

/-- A call of a math method. -/
def buildMath (g : Generator) (id : NodeId) (m : MathMethod) (args : List NodeId) :
    Step Expr := do
  if m.isDerivative && (← stage) != .fragment then fail (ScopeError.derivativeStage m)
  let result ← typeOf id
  let types ← args.mapM typeOf
  let targets ← ofExcept (m.argumentTypes types result)
  return .math m (← g.values (args.zip targets))

/-- A choice of components. -/
def buildSplit (g : Generator) (source : NodeId) (components : String) :
    Step (Option Expr) := do
  let type ← typeOf source
  discard <| ofExcept (Swizzle.resultType type components)
  let cs ← ofExcept (Swizzle.read components type.components)
  return (← g.emit source).map fun e => .swizzle e cs

/-- A vector joined from parts. -/
def buildJoin (g : Generator) (id : NodeId) (parts : List NodeId) : Step Expr := do
  let type ← typeOf id
  let kind := type.scalarKind.getD .float
  let parts ← parts.mapM fun part => do g.value part ((← typeOf part).recast kind)
  useType type
  return .construct type parts

/-- An explicit conversion. -/
def buildConvert (g : Generator) (source : NodeId) (target : ValueType) :
    Step (Option Expr) := do
  let type ← typeOf source
  match ← g.emit source with
  | some e => return some (← ofExcept (e.convert type target))
  | none =>
    if type ≠ target then fail (TypeError.conversion type target)
    return none

/-- A struct value, member by member. -/
def buildStruct (g : Generator) (id : NodeId) (values : List NodeId) : Step Expr := do
  let type ← typeOf id
  let members ← structMembers type.name
  if members.length ≠ values.length then
    fail (LayoutError.structCount type.name members.length values.length)
  let args ← g.values (values.zip (members.map Member.type))
  useType type
  return .construct type args

/-- An array value. -/
def buildArray (g : Generator) (element : ValueType) (values : List NodeId) : Step Expr := do
  let type ← ofExcept (arrayType element values.length)
  let args ← g.values (values.map fun v => (v, element))
  useType type
  return .construct type args

/-- A member of a struct value. -/
def buildMember (g : Generator) (base : NodeId) (name : String) : Step (Option Expr) := do
  discard <| memberType (← typeOf base) name
  return (← g.emit base).map fun e => .member e name

/-- The element of `base`, the code of the node `source`, at an index. -/
def buildElement (g : Generator) (base : Option Expr) (source i : NodeId) :
    Step (Option Expr) := do
  let type ← typeOf source
  let index ← typeOf i
  discard <| elementType type index
  checkIndex type i
  let i ← g.value i index
  return base.map fun e => .index e i

/-- An element of an array, a vector or a matrix. -/
def buildIndex (g : Generator) (base i : NodeId) : Step (Option Expr) := do
  buildElement g (← g.emit base) base i

/-! ### Places and variables -/

/-- What an index is applied to. -/
def placeBase (g : Generator) (base : NodeId) : Step Expr := do
  match ← node (← resolve base) with
  | .storageBuffer name element count access =>
    let b ← registerStorage name element count access
    let e ← useStorage name b
    if b.access = .read then fail (LayoutError.readOnlyBuffer name)
    return e
  | _ => return (← g.place base).1

/-- The place of a node of type `type`. -/
def placeOf (g : Generator) (id : NodeId) (type : ValueType) : Node → Step Expr
  | .var _ _ true => fail TypeError.readOnlyVariable
  | .var .. | .property .. => do
    match ← g.emit id with
    | some e => return e
    | none => fail (TypeError.noValue type)
  | .member base name => return .member (← g.place base).1 name
  | .index base i => do
    match ← buildElement g (some (← placeBase g base)) base i with
    | some e => return e
    | none => fail (TypeError.noValue type)
  | .split base components => do
    if 1 < components.utf8ByteSize && !(← dialect).assignsSwizzles then
      fail (DialectError.swizzleTarget (← dialect) components)
    let (e, t) ← g.place base
    return .swizzle e (← ofExcept (Swizzle.read components t.components))
  | n => fail (TypeError.notAssignable n.kindName)

/-- The place of a node and its type. -/
def buildPlace (g : Generator) (id : NodeId) : Step (Expr × ValueType) := do
  let id ← resolve id
  located id do
    let n ← node id
    let type ← typeOf id
    return (← placeOf g id type n, type)

/-- The type of a new variable, its first value and the name it gets. -/
def prepareVariable (g : Generator) (id value : NodeId) (name : Option String) :
    Step (ValueType × Expr × String) := do
  let type ← typeOf id
  let init ← g.value value type
  useType type
  match name with
  | some name => return (type, init, ← claimLocal name)
  | none => return (type, init, ← claimTemp)

/-- A variable, which is declared where it is met first. -/
def buildVariable (g : Generator) (id value : NodeId) (name : Option String) (readOnly : Bool) :
    Step Expr := do
  match ← boundName? id with
  | some name => return localName name
  | none =>
    let (type, init, name) ← prepareVariable g id value name
    declareVariable id value readOnly name type init
    return localName name

/-- An assignment of a value. -/
def buildPlainAssign (g : Generator) (place : Expr) (type : ValueType) (value : NodeId) :
    Step Statement :=
  return .assign place (← g.value value type)

/-- An assignment combined with an operator, which must keep the type of the place. -/
def buildUpdate (g : Generator) (place : Expr) (type : ValueType) (op : BinaryOp)
    (value : NodeId) : Step Statement := do
  let t ← typeOf value
  let result ← ofExcept (op.resultType type t)
  if result ≠ type then fail (TypeError.compound op type result)
  let e ← g.value value (op.updateOperand type t)
  if op = .rem && type.scalarKind.getD .float = .float then
    return .assign place (.remainder place e)
  return .update place op e

/-- An assignment. -/
def buildAssign (g : Generator) (target value : NodeId) (op : Option BinaryOp) :
    Step Unit := do
  let (place, type) ← g.place target
  match op with
  | none => addStatement (← buildPlainAssign g place type value)
  | some op => addStatement (← buildUpdate g place type op value)

/-! ### Control flow and calls -/

/-- The statements of a branch that leaves its value in a variable. -/
def buildBranch (g : Generator) (result : String) (type : ValueType) (id : NodeId) :
    Step (List Statement) :=
  inBlock do addStatement (.assign (localName result) (← g.value id type))

/-- A conditional with a value. -/
def buildChoice (g : Generator) (id : NodeId) (type : ValueType) (condition : Expr)
    (thenNode elseNode : NodeId) : Step (Option Expr) := do
  if ← arePure [thenNode, elseNode] then
    buildTemp id do
      let t ← g.value thenNode type
      let e ← g.value elseNode type
      return some (.select condition t e)
  else
    let result ← declareTemp type none .mutable
    let t ← buildBranch g result type thenNode
    let e ← buildBranch g result type elseNode
    addStatement (.branch condition t (some e))
    bindValue id result
    return some (localName result)

/-- A conditional. -/
def buildConditional (g : Generator) (id condition thenNode : NodeId)
    (elseNode : Option NodeId) : Step (Option Expr) := do
  match ← boundName? id with
  | some name => return some (localName name)
  | none =>
    let type ← typeOf id
    let condition ← g.value condition .bool
    match elseNode with
    | none =>
      let t ← inBlock (g.statement thenNode)
      addStatement (.branch condition t none)
      return none
    | some elseNode =>
      if type = .void then
        let t ← inBlock (g.statement thenNode)
        let e ← inBlock (g.statement elseNode)
        addStatement (.branch condition t (some e))
        return none
      buildChoice g id type condition thenNode elseNode

/-- An end of the range of a loop. -/
def buildBound (g : Generator) (type : ValueType) (kind : ScalarKind) :
    LoopBound NodeId → Step Expr
  | .value v => return .literal kind v
  | .node id => g.value id type

/-- The levels of a loop from the `level`-th on, with the body inside the last. -/
def buildLevels (g : Generator) (id : NodeId) (body : Option NodeId) :
    Nat → List (LoopParam NodeId) → Step Unit
  | _, [] =>
    match body with
    | some body => g.statement body
    | none => return
  | level, p :: rest => do
    let (kind, step) ← ofExcept (checkLevel p)
    let counter ← claimLocal (counterName p.name (← read).loops.length)
    useType p.type
    let start ← buildBound g p.type kind p.start
    let stop ← buildBound g p.type kind p.stop
    let inner ← inLoop ⟨id, level, counter⟩ (inBlock (buildLevels g id body (level + 1) rest))
    releaseLocal counter
    addStatement (.loop counter p.type start p.resolvedCondition stop step inner)

/-- A loop. -/
def buildLoop (g : Generator) (id : NodeId) (params : List (LoopParam NodeId))
    (body : Option NodeId) : Step Unit := do
  if params.isEmpty then fail TypeError.loopWithoutParam
  buildLevels g id body 0 params

/-- Statements in sequence and the value after them. -/
def buildStack (g : Generator) (nodes : List NodeId) (output : Option NodeId) :
    Step (Option Expr) := do
  nodes.forM g.statement
  match output with
  | some output => g.emit output
  | none => return none

/-- An argument of a call. -/
def buildArgument (g : Generator) (function : String) (arg : NodeId) (p : Native.Parameter) :
    Step Expr := do
  if p.passing.isOutput then
    let (place, type) ← g.place arg
    if type ≠ p.valueType then
      fail (TypeError.outputArgument p.name function p.valueType type)
    return .address place
  else g.value arg p.valueType

/-- A call of a native function. -/
def buildCall (g : Generator) (id : NodeId) (function : FunctionId) (args : List NodeId) :
    Step (Option Expr) := do
  match ← boundName? id with
  | some name => return some (localName name)
  | none =>
    let f ← registerFunction function
    if f.inputs.length ≠ args.length then
      fail (TypeError.callArity f.name f.inputs.length args.length)
    useFunction function
    let values ← (args.zip f.inputs).mapM fun a => buildArgument g f.name a.1 a.2
    if f.result = .void then
      addStatement (.call f.name values)
      return none
    let name ← declareTemp f.result (some (.call f.name values)) .immutable
    bindValue id name
    return some (localName name)

/-! ### All nodes -/

/-- A step without a value. -/
def withoutValue (step : Step Unit) : Step (Option Expr) := do
  step
  return none

/-- The code of a node. -/
def generateNode (g : Generator) (id : NodeId) : Node → Step (Option Expr)
  | .const type values => some <$> (buildConstant type values : Step Expr)
  | .uniform name type group update value => do
    let (group, u) ← registerUniform id name type group update value
    some <$> (useUniform group u : Step Expr)
  | .meshAttribute name type => some <$> (buildAttribute name type : Step Expr)
  | .varying source name interpolation sampling =>
    some <$> buildVarying g id source name interpolation sampling
  | .property name type => some <$> (buildProperty name type : Step Expr)
  | .builtin b => some <$> (useBuiltin b : Step Expr)
  | .texture name uv level => buildTemp id (some <$> buildTexture g name uv level)
  | .storageBuffer name element count access =>
    some <$> (buildStorage name element count access : Step Expr)
  | .var value name readOnly => some <$> buildVariable g id value name readOnly
  | .assign target value op => withoutValue (buildAssign g target value op)
  | .operator op left right => buildTemp id (some <$> buildOperator g op left right)
  | .unary op operand => buildTemp id (buildUnary g op operand)
  | .math method args => buildTemp id (some <$> buildMath g id method args)
  | .split source components => buildSplit g source components
  | .join parts _ => buildTemp id (some <$> buildJoin g id parts)
  | .convert source target => buildTemp id (buildConvert g source target)
  | .conditional condition thenNode elseNode => buildConditional g id condition thenNode elseNode
  | .loop params body => withoutValue (buildLoop g id params body)
  | .loopIndex loop param => some <$> (buildCounter loop param : Step Expr)
  | .jump j => withoutValue (buildJump j)
  | .stack nodes output => buildStack g nodes output
  | .structType name _ => fail (TypeError.layoutAsValue name)
  | .struct _ values => buildTemp id (some <$> buildStruct g id values)
  | .array element values => buildTemp id (some <$> buildArray g element values)
  | .member base name => buildMember g base name
  | .index base i => buildIndex g base i
  | .context inner values => inContext id values (g.emit inner)
  | .contextValue key fallback => withContextValue key fallback g.emit
  | .cache inner shares => do inScope (← cacheScope id shares) (g.emit inner)
  | .call function args => buildCall g id function args
  | .remap .. | .custom _ => fail GraphError.unexpandedCode

/-- The code of the node that is built in the place of `id`. -/
def emitNode (g : Generator) (id : NodeId) : Step (Option Expr) := do
  let id ← resolve id
  let before ← get
  let code ← located id do generateNode g id (← node id)
  recordVisit before id code
  return code

/-- How nodes are generated; `fuel` bounds the depth of the recursion. -/
def generator : Nat → Generator
  | 0 => ⟨fun _ => exhaust, fun _ => exhaust⟩
  | fuel + 1 =>
    ⟨fun id => emitNode (generator fuel) id, fun id => buildPlace (generator fuel) id⟩

end ShaderGraph.Machine
