import ShaderGraph.Error.Cause

/-!
# Spellings

How the two dialects write types, literals, declarations, control flow and calls.

* `Dialect.spelling` writes a type; `Dialect.refuses?` says which types have no place in the
  generated code of a dialect, and `Dialect.typeName` combines the two.
* The other functions put texts together: each takes the texts of the parts and returns the
  text of the whole.
-/

namespace ShaderGraph

/-- Whether a local may change, and how it gets its value. -/
inductive Mutability where
  | mutable
  | immutable
  /-- The value is known before the program runs. -/
  | constant
deriving DecidableEq, Repr

/-- The name of a mutability. -/
def Mutability.name : Mutability → String
  | .mutable => "mutable"
  | .immutable => "immutable"
  | .constant => "constant"

namespace Dialect

/-! ### Types -/

/-- A scalar type in WGSL. -/
def wgslScalar : ScalarKind → String
  | .bool => "bool"
  | .int => "i32"
  | .uint => "u32"
  | .float => "f32"

/-- A type in GLSL. -/
def glslSpelling : ValueType → String
  | .texture => "texture2D"
  | .array element count => s!"{glslSpelling element}[{count.toNat}]"
  | t => t.name

/-- A type in WGSL. An array whose length is known only at run time shows no length. -/
def wgslSpelling : ValueType → String
  | .void => "void"
  | .scalar k => wgslScalar k
  | .vector k w => s!"vec{w.toNat}<{wgslScalar k}>"
  | .matrix w => s!"mat{w.toNat}x{w.toNat}<f32>"
  | .texture => "texture_2d<f32>"
  | .struct name => name
  | .array element count =>
    if count = 0 then s!"array<{wgslSpelling element}>"
    else s!"array<{wgslSpelling element}, {count.toNat}>"

/-- The text of a type. -/
def spelling : Dialect → ValueType → String
  | .glsl => glslSpelling
  | .wgsl => wgslSpelling

/-- Why a type cannot be written: in GLSL the length of an array must be known, in WGSL there
is no type without values. -/
def refuses? : Dialect → ValueType → Option TypeError
  | .glsl, .array element count => if count = 0 then some .runtimeArray else refuses? .glsl element
  | .wgsl, .array element _ => refuses? .wgsl element
  | .wgsl, .void => some .voidSpelling
  | _, _ => none

/-- The text of a type, if it can be written. -/
def typeName (d : Dialect) (t : ValueType) : Except TypeError String :=
  match d.refuses? t with
  | some e => .error e
  | none => .ok (d.spelling t)

/-! ### Literals -/

/-- Literals of type `float` are written out and keep their point. -/
def literalStyle : Decimal.Style := ⟨.up, none, none, true, false⟩

/-- A float literal; a value that is not finite is written as zero. -/
def floatLiteral (v : Float) : String := (literalStyle.float? v).getD "0.0"

/-- A scalar literal. Whole numbers lose the fraction of the value, and unsigned ones are not
negative. -/
def literal (kind : ScalarKind) (v : Float) : String :=
  match kind with
  | .bool => if v == 0 then "false" else "true"
  | .int => toString v.toModel.toInt64.toInt
  | .uint => toString v.toUInt64.toNat ++ "u"
  | .float => floatLiteral v

/-! ### Declarations -/

/-- The texts of arguments between parentheses. -/
def arguments (args : List String) : String := "(" ++ ", ".intercalate args ++ ")"

/-- A value of a type made from others. -/
def constructor (type : String) (args : List String) : String := type ++ arguments args

/-- The declaration of a local. -/
def declaration (d : Dialect) (name type : String) (init : Option String) (m : Mutability) :
    String :=
  match d, m, init with
  | .glsl, .constant, some init => s!"const {type} {name} = {init};"
  | .glsl, _, some init => s!"{type} {name} = {init};"
  | .glsl, _, none => s!"{type} {name};"
  | .wgsl, .mutable, some init => s!"var {name}: {type} = {init};"
  | .wgsl, _, some init => s!"let {name}: {type} = {init};"
  | .wgsl, _, none => s!"var {name}: {type};"

/-- The first line of a loop. -/
def loopHeader (d : Dialect) (counter type start condition update : String) : String :=
  match d with
  | .glsl => s!"for ({type} {counter} = {start}; {condition}; {update}) " ++ "\x7b"
  | .wgsl => s!"for (var {counter}: {type} = {start}; {condition}; {update}) " ++ "\x7b"

/-! ### Expressions -/

/-- The name of a math method. -/
def methodName (d : Dialect) (m : MathMethod) : String :=
  match d, m with
  | .glsl, .inverseSqrt => "inversesqrt"
  | .glsl, .atan2 => "atan"
  | .glsl, .dfdx => "dFdx"
  | .glsl, .dfdy => "dFdy"
  | .glsl, .saturate => "clamp"
  | .wgsl, .dfdx => "dpdx"
  | .wgsl, .dfdy => "dpdy"
  | _, m => m.name

/-- A call of a math method; in GLSL, `saturate` is a clamp between zero and one. -/
def mathCall (d : Dialect) (m : MathMethod) (args : List String) : String :=
  match d, m with
  | .glsl, .saturate => d.methodName m ++ "(" ++ ", ".intercalate args ++ ", 0.0, 1.0)"
  | _, _ => d.methodName m ++ arguments args

/-- The remainder of floats. -/
def floatRemainder (d : Dialect) (a b : String) : String :=
  match d with
  | .glsl => s!"mod({a}, {b})"
  | .wgsl => s!"({a} % {b})"

/-- A choice between two values. -/
def select (d : Dialect) (condition whenTrue whenFalse : String) : String :=
  match d with
  | .glsl => s!"({condition} ? {whenTrue} : {whenFalse})"
  | .wgsl => s!"select({whenFalse}, {whenTrue}, {condition})"

/-- A texture sample. -/
def sample (d : Dialect) (texture sampler uv : String) (level : Option String) : String :=
  match d, level with
  | .glsl, some level => s!"textureLod(sampler2D({texture}, {sampler}), {uv}, {level})"
  | .glsl, none => s!"texture(sampler2D({texture}, {sampler}), {uv})"
  | .wgsl, some level => s!"textureSampleLevel({texture}, {sampler}, {uv}, {level})"
  | .wgsl, none => s!"textureSample({texture}, {sampler}, {uv})"

/-! ### References -/

/-- A member of a uniform block. GLSL blocks have no instance name. -/
def uniformMember (d : Dialect) (inst member : String) : String :=
  match d with
  | .glsl => member
  | .wgsl => s!"{inst}.{member}"

/-- The parameter through which a WGSL program receives a built-in input: the attribute that
marks it, its name and its type. -/
def builtinParameter : Builtin → String × String × String
  | .vertexIndex => ("vertex_index", "vertexIndex", "u32")
  | .instanceIndex => ("instance_index", "instanceIndex", "u32")
  | .fragCoord => ("position", "fragCoord", "vec4<f32>")
  | .frontFacing => ("front_facing", "frontFacing", "bool")
  | .globalInvocationId => ("global_invocation_id", "globalId", "vec3<u32>")
  | .localInvocationId => ("local_invocation_id", "localId", "vec3<u32>")
  | .workgroupId => ("workgroup_id", "workgroupId", "vec3<u32>")

/-- A built-in input in GLSL. -/
def glslBuiltin : Builtin → String
  | .vertexIndex => "uint(gl_VertexIndex)"
  | .instanceIndex => "uint(gl_InstanceIndex)"
  | .fragCoord => "gl_FragCoord"
  | .frontFacing => "gl_FrontFacing"
  | .globalInvocationId => "gl_GlobalInvocationID"
  | .localInvocationId => "gl_LocalInvocationID"
  | .workgroupId => "gl_WorkGroupID"

/-- A built-in input. -/
def builtin (d : Dialect) (b : Builtin) : String :=
  match d with
  | .glsl => glslBuiltin b
  | .wgsl => (builtinParameter b).2.1

/-- A varying in a stage. A WGSL vertex program writes it into its output record. -/
def varying (d : Dialect) (stage : Stage) (name : String) : String :=
  match d, stage with
  | .wgsl, .vertex => s!"output.{name}"
  | _, _ => name

/-- A place handed to a function that writes to it. -/
def address (d : Dialect) (place : String) : String :=
  match d with
  | .glsl => place
  | .wgsl => s!"&{place}"

/-- Whether several components can be assigned at once. -/
def assignsSwizzles : Dialect → Bool
  | .glsl => true
  | .wgsl => false

/-! ### Small facts -/

theorem typeName_eq_ok_iff {d : Dialect} {t : ValueType} {s : String} :
    d.typeName t = .ok s ↔ d.refuses? t = none ∧ s = d.spelling t := by
  cases h : d.refuses? t <;> simp [typeName, h, eq_comm]

theorem refuses?_scalar (d : Dialect) (k : ScalarKind) : d.refuses? (.scalar k) = none := by
  cases d <;> rfl

theorem refuses?_vector (d : Dialect) (k : ScalarKind) (w : Width) :
    d.refuses? (.vector k w) = none := by
  cases d <;> rfl

theorem refuses?_matrix (d : Dialect) (w : Width) : d.refuses? (.matrix w) = none := by
  cases d <;> rfl

end Dialect

end ShaderGraph
