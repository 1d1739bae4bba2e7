import ShaderGraph.Code.Expr

/-!
# Types of swizzles, joins and constants

* `Swizzle.read` reads the components that a text names, each within the width of its source.
* `Swizzle.resultType` and `joinType` are the types of what is taken apart and put together.
* `constantType` and `arrayType` check constants and arrays.
-/

namespace ShaderGraph

namespace Swizzle

/-- The component that a letter names: as a position, a color or a texture coordinate. -/
def component? : Char → Option Component
  | 'x' | 'r' | 's' => some .x
  | 'y' | 'g' | 't' => some .y
  | 'z' | 'b' | 'p' => some .z
  | 'w' | 'a' | 'q' => some .w
  | _ => none

/-- The component that a letter names in a value of `n` components. -/
def readLetter (n : UInt32) (c : Char) : Except TypeError Component :=
  match component? c with
  | none => .error (.swizzleLetter c)
  | some k => if n.toNat ≤ k.index then .error (.swizzleRange c n) else .ok k

/-- The one to four components that a text names in a value of `n` components. -/
def read (components : String) (n : UInt32) : Except TypeError (List Component) :=
  if components.isEmpty || 4 < components.utf8ByteSize then .error (.swizzleLength components)
  else components.toList.mapM (readLetter n)

/-- The type of a choice of components. -/
def resultType (source : ValueType) (components : String) : Except TypeError ValueType :=
  match source with
  | .vector kind _ =>
    match read components source.components with
    | .error e => .error e
    | .ok cs =>
      match ValueType.ofComponents kind (UInt32.ofNat cs.length) with
      | some t => .ok t
      | none => .error (.swizzleLength components)
  | _ => .error (.swizzleSource source)

end Swizzle

/-- The kind in which the scalars of joined parts meet: one kind stays, mixed numbers become
floats. -/
def joinKind (kinds : List ScalarKind) : Except TypeError ScalarKind :=
  match kinds with
  | [] => .ok .float
  | k :: ks =>
    if ks.all (· = k) then .ok k
    else if kinds.contains .bool then .error .joinBools
    else .ok .float

/-- How many components some parts have together. -/
def totalWidth (parts : List ValueType) : UInt32 :=
  parts.foldl (fun n t => n + t.components) 0

/-- The type of a vector joined from parts. An explicit type must be a vector of as many
components. -/
def joinType (parts : List ValueType) (explicit : Option ValueType) :
    Except TypeError ValueType :=
  let total := totalWidth parts
  if parts.any fun t => !t.isScalarOrVector then .error .joinParts
  else match explicit with
    | some t =>
      if !t.isVector || t.components ≠ total then .error (.joinTarget total t) else .ok t
    | none =>
      match joinKind (parts.filterMap ValueType.scalarKind) with
      | .error e => .error e
      | .ok kind =>
        match if total = 1 then none else ValueType.ofComponents kind total with
        | some t => .ok t
        | none => .error (.joinCount total)

/-- Checks a constant: its type is a scalar, vector or matrix, it has one value or one for each
component, and all are finite. -/
def constantType (type : ValueType) (values : List Float) : Except TypeError ValueType :=
  if type.scalarKind.isNone then .error (.constantType type)
  else if 1 < values.length && values.length ≠ type.components.toNat then
    .error (.constantCount type type.components values.length)
  else match values.find? fun v => !v.isFinite with
    | some v => .error (.constantValue type v)
    | none => .ok type

/-- The type of an array of `count` values. -/
def arrayType (element : ValueType) (count : Nat) : Except TypeError ValueType :=
  if count = 0 then .error .emptyArray
  else match element with
    | .void | .texture => .error (.arrayElement element)
    | _ => .ok (.array element (UInt32.ofNat count))

/-- Whether values of the type can be passed between stages or read from a mesh. -/
def ValueType.isInterface (t : ValueType) : Bool := t.isScalarOrVector && t.scalarKind != some .bool

/-! ### Small facts -/

theorem constantType_eq {type t : ValueType} {values : List Float}
    (h : constantType type values = .ok t) : t = type := by
  unfold constantType at h
  repeat' split at h
  all_goals simp_all

end ShaderGraph
