import ShaderGraph.Error.Cause

/-!
# Native function declarations

A shader function that was read from its source, and its text.

* `Declaration` holds the name, the parameters, the result type and the body; `Form` holds
  what is written differently in the two dialects.
* `Declaration.code` writes the function under a name of choice.
* `Declaration.foreignFault?` says why a GLSL function cannot be taken into a WGSL program.
-/

namespace ShaderGraph.Native

/-- How an argument is passed. -/
inductive Passing where
  | input
  | output
  | inputOutput
deriving DecidableEq, Repr

/-- The name of a way of passing. -/
def Passing.name : Passing → String
  | .input => "in"
  | .output => "out"
  | .inputOutput => "inout"

/-- Whether the argument must be a place that can be written. -/
def Passing.isOutput : Passing → Bool
  | .input => false
  | .output | .inputOutput => true

/-- A parameter of a function. -/
structure Parameter where
  name : String
  type : ValueType
  passing : Passing
  isConst : Bool
  /-- The length of an array parameter, whose elements are of type `type`. -/
  count : Option UInt32
deriving DecidableEq, Repr

/-- The type of the argument. -/
def Parameter.valueType (p : Parameter) : ValueType :=
  match p.count with
  | some n => .array p.type n
  | none => p.type

/-- What the two dialects write differently. -/
inductive Form where
  /-- In GLSL, any text may precede the function. -/
  | glsl (preamble : String)
  /-- In WGSL, types are written again as they were found. -/
  | wgsl (parameterTypes : List String) (resultType : Option String)
deriving DecidableEq, Repr

/-- A function with its body; the body includes its braces. -/
structure Declaration where
  name : String
  inputs : List Parameter
  result : ValueType
  form : Form
  body : String
deriving DecidableEq, Repr

namespace Declaration

/-- The dialect a function is written in. -/
def dialect (f : Declaration) : Dialect :=
  match f.form with
  | .glsl _ => .glsl
  | .wgsl _ _ => .wgsl

/-- A parameter in GLSL. -/
def glslParameter (p : Parameter) : String :=
  (if p.isConst then "const " else "") ++
  (match p.passing with
    | .input => ""
    | .output => "out "
    | .inputOutput => "inout ") ++
  p.type.name ++ " " ++ p.name ++
  (match p.count with
    | some n => s!"[{n}]"
    | none => "")

/-- The text of the function under a name. -/
def code (f : Declaration) (name : String) : String :=
  match f.form with
  | .glsl preamble =>
    (if preamble.isEmpty then "" else preamble ++ "\n") ++
      f.result.name ++ " " ++ name ++ "(" ++ ", ".intercalate (f.inputs.map glslParameter) ++
      ") " ++ f.body
  | .wgsl types result =>
    let parameters := List.zipWith (fun p type => s!"{p.name}: {type}") f.inputs types
    let arrow := match result with
      | some type => " -> " ++ type
      | none => ""
    "fn " ++ name ++ "(" ++ ", ".intercalate parameters ++ ")" ++ arrow ++ " " ++ f.body

/-- Why a parameter has no counterpart in WGSL. -/
def parameterFault? (name : String) (p : Parameter) : Option DialectError :=
  if p.passing.isOutput || p.count.isSome then some (.passing p.name name)
  else if p.type.isScalarOrVector then none
  else some (.passedType p.type)

/-- Why a GLSL function cannot be taken into a WGSL program: it passes something that is no
scalar and no vector, or passes it by reference. -/
def foreignFault? (f : Declaration) (name : String) : Option DialectError :=
  match f.inputs.findSome? (parameterFault? name) with
  | some e => some e
  | none =>
    if f.result = .void || f.result.isScalarOrVector then none else some (.passedType f.result)

end Declaration

end ShaderGraph.Native
