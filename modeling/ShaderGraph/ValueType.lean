import ShaderGraph.Text.Scan

/-!
# Value types

The types of the values that flow between nodes: scalars, vectors, square float matrices,
textures, named structs and arrays.

* `ValueType` is the type of types; an array of length zero has its length fixed only when
  the program runs.
* `components` counts the scalars a value consists of, `scalarKind` names what they are.
* `ofComponents` goes the other way, from a kind and a count to a scalar or vector type.
* `name` is the authoring name of a type and `ofName?` reads one, aliases included.
* `uniformLayout` is the alignment and size a type has inside a uniform block.
-/

namespace ShaderGraph

/-- What a scalar is. -/
inductive ScalarKind where
  | bool
  | int
  | uint
  | float
deriving DecidableEq, Repr

/-- Whether the scalars of this kind are whole numbers. -/
def ScalarKind.isInteger : ScalarKind → Bool
  | .int | .uint => true
  | .bool | .float => false

/-- The widths of vectors and matrices. -/
inductive Width where
  | two
  | three
  | four
deriving DecidableEq, Repr

/-- A width as a number. -/
def Width.toNat : Width → Nat
  | .two => 2
  | .three => 3
  | .four => 4

/-- The width with the given number. -/
def Width.ofNat? : Nat → Option Width
  | 2 => some .two
  | 3 => some .three
  | 4 => some .four
  | _ => none

@[simp] theorem Width.ofNat?_toNat (w : Width) : Width.ofNat? w.toNat = some w := by
  cases w <;> rfl

/-- The type of a value. -/
inductive ValueType where
  | void
  | scalar (kind : ScalarKind)
  | vector (kind : ScalarKind) (width : Width)
  /-- A square matrix of floats. -/
  | matrix (width : Width)
  | texture
  | struct (name : String)
  /-- `count` values of type `element`; zero stands for a length known only at run time. -/
  | array (element : ValueType) (count : UInt32)
deriving DecidableEq, Repr

namespace ValueType

/-- The type `bool`. -/
@[match_pattern] abbrev bool : ValueType := .scalar .bool
/-- The type `int`. -/
@[match_pattern] abbrev int : ValueType := .scalar .int
/-- The type `uint`. -/
@[match_pattern] abbrev uint : ValueType := .scalar .uint
/-- The type `float`. -/
@[match_pattern] abbrev float : ValueType := .scalar .float
/-- The type `vec2`. -/
@[match_pattern] abbrev vec2 : ValueType := .vector .float .two
/-- The type `vec3`. -/
@[match_pattern] abbrev vec3 : ValueType := .vector .float .three
/-- The type `vec4`. -/
@[match_pattern] abbrev vec4 : ValueType := .vector .float .four

instance : Inhabited ValueType := ⟨.void⟩

/-- The scalar or vector type of `count` scalars of one kind; there is one for 1 to 4. -/
def ofComponents (kind : ScalarKind) (count : UInt32) : Option ValueType :=
  if count = 1 then some (.scalar kind)
  else (Width.ofNat? count.toNat).map (.vector kind)

/-- The matrix type with `columns` columns; there is one for 2 to 4. -/
def ofColumns (columns : UInt32) : Option ValueType :=
  (Width.ofNat? columns.toNat).map .matrix

/-- The kind of the scalars in a scalar, vector or matrix. -/
def scalarKind : ValueType → Option ScalarKind
  | .scalar k => some k
  | .vector k _ => some k
  | .matrix _ => some .float
  | _ => none

/-- How many scalars a value consists of, modulo `2 ^ 32`; a struct counts none. -/
def components : ValueType → UInt32
  | .scalar _ => 1
  | .vector _ w => UInt32.ofNat w.toNat
  | .matrix w => UInt32.ofNat (w.toNat * w.toNat)
  | .array element count => element.components * count
  | .void | .texture | .struct _ => 0

/-- Whether the type is a scalar. -/
def isScalar : ValueType → Bool
  | .scalar _ => true
  | _ => false

/-- Whether the type is a vector. -/
def isVector : ValueType → Bool
  | .vector _ _ => true
  | _ => false

/-- Whether the type is a matrix. -/
def isMatrix : ValueType → Bool
  | .matrix _ => true
  | _ => false

/-- Whether the type takes part in component-wise arithmetic. -/
def isScalarOrVector (t : ValueType) : Bool := t.isScalar || t.isVector

/-- The number of columns of a matrix. -/
def columns : ValueType → Option UInt32
  | .matrix w => some (UInt32.ofNat w.toNat)
  | _ => none

/-- The type of one component, column or element. -/
def element? : ValueType → Option ValueType
  | .array element _ => some element
  | .matrix w => some (.vector .float w)
  | .vector k _ => some (.scalar k)
  | _ => none

/-- The same count of scalars of another kind. Matrices exist for floats only. -/
def withKind? (t : ValueType) (kind : ScalarKind) : Option ValueType :=
  if t.isMatrix then if kind = .float then some t else none
  else ofComponents kind t.components

/-- Whether a value of the type may live in a uniform block. -/
def isHostShareable (t : ValueType) : Bool :=
  match t.scalarKind with
  | none | some .bool => false
  | some _ => true

/-- Alignment and size in bytes inside a uniform block. Each column of a matrix takes a
whole `vec4`. -/
def uniformLayout (t : ValueType) : Option (Nat × Nat) :=
  if t.isHostShareable then
    match t with
    | .matrix w => some (16, 16 * w.toNat)
    | .vector _ .two => some (8, 8)
    | .vector _ .three => some (16, 12)
    | .vector _ .four => some (16, 16)
    | _ => some (4, 4)
  else none

/-! ### Names -/

/-- The stem of a vector name. -/
def vectorStem : ScalarKind → String
  | .bool => "bvec"
  | .int => "ivec"
  | .uint => "uvec"
  | .float => "vec"

/-- The name of a scalar type. -/
def scalarName : ScalarKind → String
  | .bool => "bool"
  | .int => "int"
  | .uint => "uint"
  | .float => "float"

/-- The authoring name of a type. -/
def name : ValueType → String
  | .void => "void"
  | .scalar k => scalarName k
  | .vector k w => vectorStem k ++ toString w.toNat
  | .matrix w => "mat" ++ toString w.toNat
  | .texture => "texture"
  | .struct name => name
  | .array element count => element.name ++ "[" ++ toString count.toNat ++ "]"

/-- The names under which a type without brackets is known, in lower case. -/
def aliases : List (String × ValueType) :=
  [("void", .void), ("bool", .bool), ("boolean", .bool), ("int", .int), ("i32", .int),
   ("uint", .uint), ("u32", .uint), ("float", .float), ("f32", .float), ("number", .float),
   ("vec2", .vec2), ("vec2f", .vec2), ("vector2", .vec2),
   ("vec3", .vec3), ("vec3f", .vec3), ("vector3", .vec3),
   ("vec4", .vec4), ("vec4f", .vec4), ("vector4", .vec4), ("color", .vec4),
   ("ivec2", .vector .int .two), ("vec2i", .vector .int .two),
   ("ivec3", .vector .int .three), ("vec3i", .vector .int .three),
   ("ivec4", .vector .int .four), ("vec4i", .vector .int .four),
   ("uvec2", .vector .uint .two), ("vec2u", .vector .uint .two),
   ("uvec3", .vector .uint .three), ("vec3u", .vector .uint .three),
   ("uvec4", .vector .uint .four), ("vec4u", .vector .uint .four),
   ("bvec2", .vector .bool .two), ("bvec3", .vector .bool .three),
   ("bvec4", .vector .bool .four),
   ("mat2", .matrix .two), ("mat2x2f", .matrix .two),
   ("mat3", .matrix .three), ("mat3x3f", .matrix .three),
   ("mat4", .matrix .four), ("mat4x4f", .matrix .four),
   ("texture", .texture), ("texture2d", .texture), ("sampler2d", .texture)]

/-- The type with the given name without brackets; case and blanks around it do not
matter. -/
def ofPlainName? (cs : List Char) : Option ValueType :=
  aliases.lookup (String.ofList ((Text.trim cs).map Char.toLower))

/-- The type with the given name. A length in brackets makes an array of a plain type. -/
def ofName? (name : String) : Option ValueType :=
  let t := Text.trim name.toList
  match Text.cutAt (· == '[') t with
  | none => ofPlainName? t
  | some (element, rest) =>
    match Text.dropBack? [']'] rest with
    | none => none
    | some count =>
      match Text.readWord32? (Text.trim count), ofPlainName? element with
      | some n, some e => some (.array e n)
      | _, _ => none

/-! ### Small facts -/

@[simp] theorem isVector_eq_true_iff {t : ValueType} :
    t.isVector = true ↔ ∃ k w, t = .vector k w := by
  cases t <;> simp [isVector]

@[simp] theorem isScalar_eq_true_iff {t : ValueType} :
    t.isScalar = true ↔ ∃ k, t = .scalar k := by
  cases t <;> simp [isScalar]

@[simp] theorem isMatrix_eq_true_iff {t : ValueType} :
    t.isMatrix = true ↔ ∃ w, t = .matrix w := by
  cases t <;> simp [isMatrix]

end ValueType

end ShaderGraph
