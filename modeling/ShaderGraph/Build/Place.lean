import ShaderGraph.Build.Expression

/-!
# Places

What can be assigned to: variables, properties and elements of storage buffers, and members,
elements and components of places.
-/

namespace ShaderGraph.Build

/-- What an index is applied to. A storage buffer must be writable. -/
def placeBase (g : Generator) (base : NodeId) : Build Expr := do
  match ← node (← resolve base) with
  | .storageBuffer name element count access =>
    let b ← registerStorage name element count access
    let e ← useStorage name b
    if b.access = .read then fail (LayoutError.readOnlyBuffer name)
    return e
  | _ => return (← g.place base).1

/-- The place of a node of type `type`. -/
def placeOf (g : Generator) (id : NodeId) (type : ValueType) : Node → Build Expr
  | .var _ _ true => fail TypeError.readOnlyVariable
  | .var .. | .property .. => do
    match ← g.emit id with
    | some e => return e
    | none => fail (TypeError.noValue type)
  | .member base name => return .member (← g.place base).1 name
  | .index base i => do
    match ← buildElement g (some (← placeBase g base)) base i with
    | some e => return e
    | none => fail (TypeError.noValue type)
  | .split base components => do
    if 1 < components.utf8ByteSize && !(← dialect).assignsSwizzles then
      fail (DialectError.swizzleTarget (← dialect) components)
    let (e, t) ← g.place base
    return .swizzle e (← ofExcept (Swizzle.read components t.components))
  | n => fail (TypeError.notAssignable n.kindName)

/-- The place of a node and its type. -/
def buildPlace (g : Generator) (id : NodeId) : Build (Expr × ValueType) := do
  let id ← resolve id
  located id do
    let n ← node id
    let type ← typeOf id
    return (← placeOf g id type n, type)

/-! ### Variables and assignments -/

/-- Whether a variable may change. -/
def mutability (value : NodeId) (readOnly : Bool) : Build Mutability := do
  if !readOnly then return .mutable
  match ← node (← resolve value) with
  | .const .. => return .constant
  | _ => return .immutable

/-- Declares the variable of a node under a name. -/
def declareVariable (id value : NodeId) (readOnly : Bool) (name : String) (type : ValueType)
    (init : Expr) : Build Unit := do
  let m ← mutability value readOnly
  addStatement (.declare name type (some init) m (← recordKey id))
  bindVariable id name

/-- The type of a new variable, its first value and the name it gets. -/
def prepareVariable (g : Generator) (id value : NodeId) (name : Option String) :
    Build (ValueType × Expr × String) := do
  let type ← typeOf id
  let init ← g.value value type
  useType type
  match name with
  | some name => return (type, init, ← claimLocal name)
  | none => return (type, init, ← claimTemp)

/-- A variable, which is declared where it is met first. -/
def buildVariable (g : Generator) (id value : NodeId) (name : Option String) (readOnly : Bool) :
    Build Expr := do
  match ← boundName? id with
  | some name => return localName name
  | none =>
    let (type, init, name) ← prepareVariable g id value name
    declareVariable id value readOnly name type init
    return localName name

/-- An assignment of a value. -/
def buildPlainAssign (g : Generator) (place : Expr) (type : ValueType) (value : NodeId) :
    Build Statement :=
  return .assign place (← g.value value type)

/-- An assignment combined with an operator, which must keep the type of the place. -/
def buildUpdate (g : Generator) (place : Expr) (type : ValueType) (op : BinaryOp)
    (value : NodeId) : Build Statement := do
  let t ← typeOf value
  let result ← ofExcept (op.resultType type t)
  if result ≠ type then fail (TypeError.compound op type result)
  let e ← g.value value (op.updateOperand type t)
  -- there is no operator for the remainder of floats
  if op = .rem && type.scalarKind.getD .float = .float then
    return .assign place (.remainder place e)
  return .update place op e

/-- An assignment. -/
def buildAssign (g : Generator) (target value : NodeId) (op : Option BinaryOp) :
    Build Unit := do
  let (place, type) ← g.place target
  match op with
  | none => addStatement (← buildPlainAssign g place type value)
  | some op => addStatement (← buildUpdate g place type op value)

end ShaderGraph.Build
