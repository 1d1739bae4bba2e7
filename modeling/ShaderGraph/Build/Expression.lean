import ShaderGraph.Build.Generator

/-!
# Expressions

The steps for nodes that have a value and add no statement of their own: constants and inputs,
operators and math methods, and what is put together and taken apart.
-/

namespace ShaderGraph.Build

/-! ### Constants and inputs -/

/-- The components of a constant: one value fills the diagonal of a matrix. -/
def constantComponents (type : ValueType) (values : List Float) : List Float :=
  let first := values.headD 0
  match type.columns with
  | some columns =>
    if values.length ≤ 1 then
      (List.range (columns.toNat * columns.toNat)).map fun i =>
        if i / columns.toNat = i % columns.toNat then first else 0
    else values
  | none => if values.length ≤ 1 then [first] else values

/-- A constant. One value stands for all components of a vector. -/
def buildConstant (type : ValueType) (values : List Float) : Build Expr := do
  discard <| ofExcept (constantType type values)
  let kind := type.scalarKind.getD .float
  let literals := (constantComponents type values).map (Expr.literal kind)
  if type.isScalar then return literals.headD default
  useType type
  return .construct type literals

/-- A variable of the stage that is declared at the top of the entry point. -/
def buildProperty (name : String) (type : ValueType) : Build Expr := do
  match (← here).properties.get? name with
  | some (existing, emitted) =>
    if existing ≠ type then fail (TypeError.propertyConflict name type existing)
    return localName emitted
  | none =>
    useType type
    let emitted ← claimLocal name
    modifyHere fun b => { b with
      locals := b.locals ++ [.declare emitted type none .mutable none]
      properties := b.properties.put name (type, emitted) }
    return localName emitted

/-- An attribute, which only the vertex program can read. -/
def buildAttribute (name : String) (type : Option ValueType) : Build Expr := do
  if (← stage) ≠ .vertex then fail (ScopeError.attributeStage name)
  useAttribute name type

/-- Writes a varying in the vertex program, unless that has happened. -/
def writeVarying (g : Generator) (id : NodeId) (v : VaryingEntry) : Build Unit := do
  if v.location.isSome then return
  inStage .vertex do
    let e ← g.value v.source v.type
    addStatement (.assign (.reference (.varying .vertex v.name)) e)
    modifyHere fun b => { b with varyings := appendNew b.varyings id }
  locateVarying id v

/-- A varying. The fragment program declares it as an input. -/
def buildVarying (g : Generator) (id source : NodeId) (name : Option String)
    (interpolation : Interpolation) (sampling : Option Sampling) : Build Expr := do
  let stage ← stage
  if stage = .compute then fail ScopeError.varyingInCompute
  let v ← registerVarying id source name interpolation sampling
  writeVarying g id v
  if stage = .fragment then modifyHere fun b => { b with varyings := appendNew b.varyings id }
  return .reference (.varying stage v.name)

/-- The level of a texture sample. Only the fragment stage can choose one by itself; elsewhere
the first is taken. -/
def buildLevel (g : Generator) (level : Option NodeId) : Build (Option Expr) := do
  match level with
  | some level => return some (← g.value level .float)
  | none => return if (← stage) = .fragment then none else some (.literal .float 0)

/-- A texture sample. -/
def buildTexture (g : Generator) (name : String) (uv : NodeId) (level : Option NodeId) :
    Build Expr := do
  let uv ← g.value uv .vec2
  let level ← buildLevel g level
  let t ← useTexture name
  return .sample t.name t.sampler uv level

/-- A storage buffer. -/
def buildStorage (name : String) (element : ValueType) (count : Option UInt32)
    (access : Access) : Build Expr := do
  useStorage name (← registerStorage name element count access)

/-! ### Operators and math methods -/

/-- A binary operator. -/
def buildOperator (g : Generator) (op : BinaryOp) (left right : NodeId) : Build Expr := do
  let l ← typeOf left
  let r ← typeOf right
  let result ← ofExcept (op.resultType l r)
  let targets := op.operandTypes l r result
  let left ← g.value left targets.1
  let right ← g.value right targets.2
  if op = .rem && result.scalarKind = some .float then return .remainder left right
  return .operator op left right

/-- A unary operator. -/
def buildUnary (g : Generator) (op : UnaryOp) (operand : NodeId) : Build (Option Expr) := do
  discard <| ofExcept (op.resultType (← typeOf operand))
  return (← g.emit operand).map (Expr.unary op)

/-- A call of a math method. Derivatives exist in the fragment stage only. -/
def buildMath (g : Generator) (id : NodeId) (m : MathMethod) (args : List NodeId) :
    Build Expr := do
  if m.isDerivative && (← stage) != .fragment then fail (ScopeError.derivativeStage m)
  let result ← typeOf id
  let types ← args.mapM typeOf
  let targets ← ofExcept (m.argumentTypes types result)
  return .math m (← g.values (args.zip targets))

/-! ### Putting together and taking apart -/

/-- A choice of components. -/
def buildSplit (g : Generator) (source : NodeId) (components : String) :
    Build (Option Expr) := do
  let type ← typeOf source
  discard <| ofExcept (Swizzle.resultType type components)
  let cs ← ofExcept (Swizzle.read components type.components)
  return (← g.emit source).map fun e => .swizzle e cs

/-- A vector joined from parts. -/
def buildJoin (g : Generator) (id : NodeId) (parts : List NodeId) : Build Expr := do
  let type ← typeOf id
  let kind := type.scalarKind.getD .float
  let parts ← parts.mapM fun part => do g.value part ((← typeOf part).recast kind)
  useType type
  return .construct type parts

/-- An explicit conversion. -/
def buildConvert (g : Generator) (source : NodeId) (target : ValueType) :
    Build (Option Expr) := do
  let type ← typeOf source
  match ← g.emit source with
  | some e => return some (← ofExcept (e.convert type target))
  | none =>
    if type ≠ target then fail (TypeError.conversion type target)
    return none

/-- A struct value, member by member. -/
def buildStruct (g : Generator) (id : NodeId) (values : List NodeId) : Build Expr := do
  let type ← typeOf id
  let members ← structMembers type.name
  if members.length ≠ values.length then
    fail (LayoutError.structCount type.name members.length values.length)
  let args ← g.values (values.zip (members.map Member.type))
  useType type
  return .construct type args

/-- An array value. -/
def buildArray (g : Generator) (element : ValueType) (values : List NodeId) : Build Expr := do
  let type ← ofExcept (arrayType element values.length)
  let args ← g.values (values.map fun v => (v, element))
  useType type
  return .construct type args

/-- A member of a struct value. -/
def buildMember (g : Generator) (base : NodeId) (name : String) : Build (Option Expr) := do
  discard <| memberType (← typeOf base) name
  return (← g.emit base).map fun e => .member e name

/-- How many elements a value of a type has, if that is known. -/
def elementCount? : ValueType → Option UInt32
  | .array _ count => if count = 0 then none else some count
  | t => t.columns.or (some t.components)

/-- Refuses a constant index that lies outside. -/
def checkIndex (base : ValueType) (i : NodeId) : Build Unit := do
  match ← node (← resolve i), elementCount? base with
  | .const _ values, some count =>
    let position := values.headD 0
    if position < 0 || Float.ofNat count.toNat ≤ position then
      fail (LayoutError.indexRange position base)
  | _, _ => return

/-- The element of `base`, the code of the node `source`, at an index. -/
def buildElement (g : Generator) (base : Option Expr) (source i : NodeId) :
    Build (Option Expr) := do
  let type ← typeOf source
  let index ← typeOf i
  discard <| elementType type index
  checkIndex type i
  let i ← g.value i index
  return base.map fun e => .index e i

/-- An element of an array, a vector or a matrix. -/
def buildIndex (g : Generator) (base i : NodeId) : Build (Option Expr) := do
  buildElement g (← g.emit base) base i

end ShaderGraph.Build
