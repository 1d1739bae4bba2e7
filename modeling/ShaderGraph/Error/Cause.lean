import ShaderGraph.Decimal.Style
import ShaderGraph.Node.Basic

/-!
# Causes of refusal

Why a build, or one of the rules it rests on, refuses its input.

* `TypeError`, `ScopeError`, `DialectError`, `LayoutError` and `GraphError` list the causes of
  the five kinds of errors; each has its wording in `message`.
* `Cause` is any of them, or the refusal of a custom node, which brings its own wording.
-/

namespace ShaderGraph

/-- Numbers in messages are written out; whole ones have no point. -/
def messageStyle : Decimal.Style := ⟨.up, none, none, false, false⟩

/-- A number as messages write it. -/
def numberText (x : Float) : String :=
  match messageStyle.float? x with
  | some s => s
  | none => if x.isNaN then "NaN" else if x < 0 then "-inf" else "inf"

/-- Why an operator does not apply to its operands. -/
inductive OperandFault where
  | notNumbers
  | notBool
  | notScalars
  | boolOrder
  | intWithUint
  | notIntegers
  | shiftWidth
  | widths
  | boolArithmetic
  | matrices
  | matrixWithOther
  | matrixSize
deriving DecidableEq, Repr

/-- The wording of a fault. -/
def OperandFault.message : OperandFault → String
  | notNumbers => "operands must be scalars, vectors or matrices"
  | notBool => "logical operators take bool scalars"
  | notScalars => "comparisons take scalars"
  | boolOrder => "bools only compare for equality with bools"
  | intWithUint => "int and uint do not mix"
  | notIntegers => "bitwise operators take int or uint operands"
  | shiftWidth => "shift amount must match the shifted value"
  | widths => "component counts differ"
  | boolArithmetic => "arithmetic needs numeric operands"
  | matrices => "matrix operands must match"
  | matrixWithOther => "matrices only combine with non-matrices through `*`"
  | matrixSize => "vector length must match the matrix size"

/-- Types that do not fit or cannot be found. -/
inductive TypeError where
  | unknownName (name : String)
  | runtimeArray
  | voidSpelling
  | constantType (type : ValueType)
  | constantCount (type : ValueType) (expected : UInt32) (count : Nat)
  | constantValue (type : ValueType) (value : Float)
  | attributeType (name : String)
  | attributeForm (name : String) (type : ValueType)
  | attributeConflict (name : String) (type existing : ValueType)
  | varyingForm (type : ValueType)
  | propertyConflict (name : String) (type existing : ValueType)
  | coercion (source target : ValueType)
  | conversion (source target : ValueType)
  | noValue (target : ValueType)
  | storedVoid
  | compound (op : BinaryOp) (type result : ValueType)
  | readOnlyVariable
  | notAssignable (kind : String)
  | operator (op : BinaryOp) (left right : ValueType) (fault : OperandFault)
  | unary (op : UnaryOp) (type : ValueType)
  | mathArity (method : MathMethod) (count : Nat)
  | mathOperand (method : MathMethod) (type : ValueType)
  | mathWidths (method : MathMethod)
  | mathKinds (method : MathMethod)
  | mathForm (method : MathMethod) (components : UInt32)
  | floatForm (type : ValueType)
  | dotOperands
  | crossOperands
  | reflectOperands
  | signOfUint
  | swizzleLength (components : String)
  | swizzleLetter (letter : Char)
  | swizzleRange (letter : Char) (components : UInt32)
  | swizzleSource (type : ValueType)
  | joinParts
  | joinTarget (total : UInt32) (type : ValueType)
  | joinBools
  | joinCount (total : UInt32)
  | condition (type : ValueType)
  | branches (thenType elseType : ValueType)
  | loopWithoutParam
  | loopCounter (type : ValueType)
  | loopCondition (op : BinaryOp)
  | loopStep
  | emptyArray
  | arrayElement (type : ValueType)
  | memberBase (name : String) (type : ValueType)
  | memberName (struct name : String)
  | indexType (type : ValueType)
  | indexBase (type : ValueType)
  | layoutAsValue (name : String)
  | callArity (function : String) (expected count : Nat)
  | outputArgument (input function : String) (type actual : ValueType)

/-- The wording of an error. -/
def TypeError.message : TypeError → String
  | unknownName name => s!"unknown node type name `{name}`"
  | runtimeArray => "runtime-sized arrays only exist as storage buffers"
  | voidSpelling => "void has no WGSL spelling"
  | constantType t => s!"constants must be scalars, vectors or matrices, not {t.name}"
  | constantCount t n count => s!"a {t.name} constant takes 1 or {n.toNat} values, got {count}"
  | constantValue t v =>
    s!"a {t.name} constant cannot hold the non-finite value {numberText v}"
  | attributeType name =>
    s!"attribute `{name}` has no declared type; add it to the build attributes"
  | attributeForm name t => s!"attribute `{name}` cannot have type {t.name}"
  | attributeConflict name t existing =>
    s!"attribute `{name}` is read as {t.name} and as {existing.name}"
  | varyingForm t => s!"{t.name} values cannot be passed between stages"
  | propertyConflict name t existing =>
    s!"property `{name}` is {t.name} here but {existing.name} elsewhere"
  | coercion source target => s!"cannot implicitly convert {source.name} to {target.name}"
  | conversion source target => s!"cannot convert {source.name} to {target.name}"
  | noValue target => s!"expected a {target.name} value but the node produces none"
  | storedVoid => "cannot store a node that produces no value"
  | compound op t result => s!"`{op.symbol}=` would change {t.name} into {result.name}"
  | readOnlyVariable => "cannot assign to a read-only variable"
  | notAssignable kind => s!"{kind} nodes are not assignable"
  | operator op a b fault =>
    s!"cannot apply `{op.symbol}` to {a.name} and {b.name}: {fault.message}"
  | unary op t => s!"cannot apply {op.title} to {t.name}"
  | mathArity m count => s!"`{m.title}` takes {m.arity} arguments, got {count}"
  | mathOperand m t => s!"`{m.title}` takes numeric scalars or vectors, got {t.name}"
  | mathWidths m => s!"`{m.title}` arguments have mismatched lengths"
  | mathKinds m => s!"`{m.title}` cannot mix int and uint arguments"
  | mathForm m n => s!"`{m.title}` has no {n.toNat}-component form"
  | floatForm t => s!"{t.name} has no float form"
  | dotOperands => "`Dot` takes two vectors of the same length"
  | crossOperands => "`Cross` takes two 3-component vectors"
  | reflectOperands => "`Reflect` takes vectors"
  | signOfUint => "`Sign` is undefined for uint"
  | swizzleLength components => s!"swizzle `{components}` must have 1 to 4 components"
  | swizzleLetter c => s!"`{c}` is not a swizzle component"
  | swizzleRange c n => s!"component `{c}` is out of range for a {n.toNat}-component value"
  | swizzleSource t => s!"cannot swizzle {t.name}"
  | joinParts => "join parts must be scalars or vectors"
  | joinTarget total t => s!"cannot join {total.toNat} components into {t.name}"
  | joinBools => "cannot join bools with numbers"
  | joinCount total => s!"join needs 2 to 4 components, got {total.toNat}"
  | condition t => s!"conditions must be bool, got {t.name}"
  | branches a b => s!"conditional branches disagree: {a.name} and {b.name}"
  | loopWithoutParam => "loops need at least one parameter"
  | loopCounter t => s!"loop counters must be int, uint or float, not {t.name}"
  | loopCondition op => s!"`{op.symbol}` cannot terminate a loop"
  | loopStep => "loop steps must be nonzero"
  | emptyArray => "array constructors need at least one value"
  | arrayElement t => s!"cannot build an array of {t.name}"
  | memberBase name t => s!"cannot read member `{name}` of {t.name}"
  | memberName struct name => s!"struct `{struct}` has no member `{name}`"
  | indexType t => s!"indices must be int or uint, got {t.name}"
  | indexBase t => s!"cannot index into {t.name}"
  | layoutAsValue name =>
    s!"struct layout `{name}` is not a value; construct it with a Struct node"
  | callArity function expected count =>
    s!"`{function}` takes {expected} arguments, got {count}"
  | outputArgument input function t actual =>
    s!"argument `{input}` of `{function}` needs a {t.name} variable, got {actual.name}"

/-- A node outside the scope or stage it is valid in. -/
inductive ScopeError where
  | contextValue (key : String)
  | varyingInCompute
  | varyingWithoutVertex
  | builtinStage (builtin : Builtin)
  | attributeStage (name : String)
  | derivativeStage (method : MathMethod)
  | loopIndex
  | jump (jump : Jump)
deriving DecidableEq, Repr

/-- The wording of an error. -/
def ScopeError.message : ScopeError → String
  | contextValue key => s!"context value `{key}` is not provided and has no fallback"
  | varyingInCompute => "varyings are not available in compute shaders"
  | varyingWithoutVertex => "varying used without a vertex stage in the build"
  | builtinStage b => s!"builtin {b.title} is only available in the {b.stage.name} stage"
  | attributeStage name =>
    s!"attribute `{name}` can only be read in the vertex stage; pass it through a varying"
  | derivativeStage m => s!"`{m.title}` is only available in the fragment stage"
  | loopIndex => "loop index used outside of its loop"
  | jump j => s!"`{j.keyword}` outside of a loop"

/-- Native code that the target dialect cannot take. -/
inductive DialectError where
  | noDeclaration (dialect : Dialect)
  | noSignature
  | invalidName (dialect : Dialect) (name : String)
  | noParameterList
  | unbalancedParentheses (dialect : Dialect)
  | noBody
  | unbalancedBraces
  | parameter (dialect : Dialect) (text : String)
  | pointer (text : String)
  | arrayLength (text : String)
  | type (dialect : Dialect) (text : String)
  | returnType (text : String)
  | afterParameters (text : String)
  | foreignFunction (source target : Dialect) (name : String)
  | passing (parameter function : String)
  | passedType (type : ValueType)
  /-- A module with the function could not be translated. -/
  | untranslated (report source : String)
  /-- The function is missing from the translated module. -/
  | lostInTranslation (function translated : String)
  /-- The source of a stage was not accepted. -/
  | rejected (report : String)
  | swizzleTarget (dialect : Dialect) (components : String)
deriving DecidableEq, Repr

/-- The name of a dialect in capitals. -/
def Dialect.capitals : Dialect → String
  | .glsl => "GLSL"
  | .wgsl => "WGSL"

/-- The wording of an error. -/
def DialectError.message : DialectError → String
  | noDeclaration d => s!"no {d.capitals} function declaration found"
  | noSignature => "GLSL function declaration needs a return type and a name"
  | invalidName d name => s!"invalid {d.capitals} function name `{name}`"
  | noParameterList => "WGSL declaration has no parameter list"
  | unbalancedParentheses d => s!"unbalanced parentheses in {d.capitals} declaration"
  | noBody => "native function has no body"
  | unbalancedBraces => "unbalanced braces in native function body"
  | parameter d text => s!"cannot parse {d.capitals} parameter `{text}`"
  | pointer text => s!"malformed pointer parameter `{text}`"
  | arrayLength text => s!"unsized or invalid array parameter `{text}`"
  | type d text => s!"unsupported {d.capitals} type `{text}` in native function"
  | returnType text => s!"unsupported WGSL return type `{text}`"
  | afterParameters text => s!"unexpected `{text}` after WGSL parameter list"
  | foreignFunction source target name =>
    s!"{source.title} function `{name}` cannot be used in a {target.title} build"
  | passing name function =>
    s!"parameter `{name}` of `{function}` cannot be lowered to WGSL (out/inout or array)"
  | passedType t => s!"GLSL functions taking or returning `{t.name}` cannot be lowered to WGSL"
  | untranslated report source => s!"GLSL->WGSL failed: {report}\nGLSL:\n{source}"
  | lostInTranslation function translated =>
    s!"failed to find generated WGSL function `{function}` in naga output\nWGSL:\n{translated}"
  | rejected report => report
  | swizzleTarget d components =>
    s!"{d.title} cannot assign to the multi-component swizzle `{components}`"

/-- Aggregates and bindings used against their layout. -/
inductive LayoutError where
  | uniformForm (name : String) (type : ValueType)
  | uniformConflict (name group : String) (type existing : ValueType)
  | cadenceConflict (name group : String) (update existing : Cadence)
  | bufferConflict (name : String)
  | bufferElement (name : String) (element : ValueType)
  | readOnlyBuffer (name : String)
  | structConflict (name : String)
  | emptyStruct (name : String)
  | structName (name : String)
  | undeclaredStruct (name : String)
  | structCount (name : String) (members values : Nat)
  | indexRange (index : Float) (type : ValueType)

/-- The wording of an error. -/
def LayoutError.message : LayoutError → String
  | uniformForm name t =>
    s!"uniform `{name}` has type {t.name}, which cannot live in a uniform buffer"
  | uniformConflict name group t existing =>
    s!"uniform `{name}` in group `{group}` is {t.name} here but {existing.name} elsewhere"
  | cadenceConflict name group update existing =>
    s!"uniform `{name}` updates per {update.title} but group `{group}` updates per " ++
      existing.title
  | bufferConflict name => s!"storage buffer `{name}` is declared with conflicting layouts"
  | bufferElement name t => s!"storage buffer `{name}` cannot hold {t.name} elements"
  | readOnlyBuffer name => s!"storage buffer `{name}` is read-only"
  | structConflict name => s!"struct `{name}` is declared twice with different members"
  | emptyStruct name => s!"struct `{name}` has no members"
  | structName name => s!"struct name `{name}` collides with a reserved identifier"
  | undeclaredStruct name => s!"struct `{name}` is not declared"
  | structCount name members values =>
    s!"struct `{name}` has {members} members, got {values} values"
  | indexRange i t => s!"index {numberText i} is out of bounds for {t.name}"

/-- The structure of the graph: missing nodes, cycles, expansions without end. -/
inductive GraphError where
  | noRoots
  | missingNode (id : NodeId)
  | missingFunction (id : FunctionId)
  | cycle (id : NodeId)
  | typeCycle (id : NodeId)
  | includeCycle
  | rounds (count : Nat)
  | chain (id : NodeId)
  | setupSelf
  | setupMissing (id : NodeId)
  | loopParam (count param : Nat)
  | loopIndexTarget (kind : String)
  | structLayout (kind : String)
  | unexpandedType
  | unexpandedCode
deriving DecidableEq, Repr

/-- The wording of an error. -/
def GraphError.message : GraphError → String
  | noRoots => "build request names no stage roots"
  | missingNode id => s!"node {id} does not exist in the graph"
  | missingFunction id => s!"native function #{id.index} does not exist"
  | cycle id => s!"cycle detected through node {id}"
  | typeCycle id => s!"cycle detected while resolving the type of node {id}"
  | includeCycle => "native function includes form a cycle"
  | rounds count => s!"setup expansion did not settle after {count} rounds"
  | chain id => s!"expansion chain from node {id} exceeds the maximum setup depth"
  | setupSelf => "setup returned the node itself"
  | setupMissing id => s!"setup returned node {id}, which does not exist"
  | loopParam count param => s!"loop has {count} parameters, index {param} requested"
  | loopIndexTarget kind => s!"loop index refers to a {kind} node"
  | structLayout kind => s!"struct layout must be a StructType node, found {kind}"
  | unexpandedType => "node was not expanded before type resolution"
  | unexpandedCode => "node was not expanded before generation"

/-- Why something is refused. -/
inductive Cause where
  | type (e : TypeError)
  | scope (e : ScopeError)
  | dialect (e : DialectError)
  | layout (e : LayoutError)
  | graph (e : GraphError)
  /-- A custom node refused with words of its own. -/
  | custom (kind : ErrorKind) (message : String)

namespace Cause

/-- The kind of error that a cause is reported under. -/
def kind : Cause → ErrorKind
  | type _ => .typeResolution
  | scope _ => .scope
  | dialect _ => .dialect
  | layout _ => .bindingLayout
  | graph _ => .graph
  | custom kind _ => kind

/-- The wording of a cause. -/
def message : Cause → String
  | type e => e.message
  | scope e => e.message
  | dialect e => e.message
  | layout e => e.message
  | graph e => e.message
  | custom _ message => message

end Cause

instance : Coe TypeError Cause := ⟨.type⟩
instance : Coe ScopeError Cause := ⟨.scope⟩
instance : Coe DialectError Cause := ⟨.dialect⟩
instance : Coe LayoutError Cause := ⟨.layout⟩
instance : Coe GraphError Cause := ⟨.graph⟩

end ShaderGraph
