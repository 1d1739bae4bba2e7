import ShaderGraph.Native.Reader

/-!
# GLSL functions in WGSL programs

A function is brought over in a module: the functions it includes, the function itself and an
entry point that calls it. A `Translator` makes a module in WGSL of that, and the function is cut
out of it.

* `entryModule` is the module. What goes into its entry point and comes out of it are the
  parameters and the result of the function.
* `Declaration.translate` is the name and the text that the function has in WGSL. A translator may
  put a `_` behind the name.
-/

namespace ShaderGraph.Native

/-- The module in WGSL for a GLSL module with an entry point for the stage, or a report. -/
abbrev Translator := String → Stage → Except String String

/-- The type that carries a value into an entry point or out of it. There are no inputs and
outputs of truth values, which go as whole numbers. -/
def carrier : ValueType → ValueType
  | .scalar .bool => .int
  | .vector .bool w => .vector .int w
  | t => t

/-- The input that carries a parameter. -/
def entryInput (p : Parameter) (i : Nat) : String :=
  let io := carrier p.type
  let flat := if (io.scalarKind.map ScalarKind.isInteger).getD false then "flat " else ""
  s!"layout(location = {i}) {flat}in {io.name} {p.name}_in;"

/-- The argument that comes from the input of a parameter. -/
def entryArgument (p : Parameter) : String :=
  if p.type.scalarKind = some .bool then s!"{p.type.name}({p.name}_in != 0)" else s!"{p.name}_in"

/-- The output of the entry point, and what the entry point does. -/
def entryResult (result : ValueType) (call : String) : String × String :=
  if result = .void then ("", call ++ ";")
  else
    let io := carrier result
    let value := if result.scalarKind = some .bool then s!"{io.name}({call})" else call
    (s!"layout(location = 0) out {io.name} _sn_out;\n", s!"_sn_out = {value};")

/-- A module with a function under a name, behind the functions that it includes. -/
def entryModule (f : Declaration) (name : String) (includes : List String) : String :=
  let call := name ++ "(" ++ ", ".intercalate (f.inputs.map entryArgument) ++ ")"
  let (output, body) := entryResult f.result call
  "#version 450\n\n" ++ String.join (includes.map (· ++ "\n\n")) ++ f.code name ++ "\n\n" ++
    "\n".intercalate (f.inputs.mapIdx fun i p => entryInput p i) ++ "\n" ++ output ++
    "void main() \x7b\n    " ++ body ++ "\n\x7d\n"

/-- A module in WGSL. The entry point is that of a fragment program if it can be, else that of a
vertex program. -/
def translateModule (t : Translator) (source : String) : Except DialectError String :=
  match t source .fragment with
  | .ok wgsl => .ok wgsl
  | .error _ =>
    match t source .vertex with
    | .ok wgsl => .ok wgsl
    | .error report => .error (.untranslated report source)

/-- A function in a translated module: its name there and its text. -/
def cutOut (wgsl name : String) : Except DialectError (String × String) :=
  match extractWgsl? wgsl name with
  | some code => .ok (name, code)
  | none =>
    let other := name ++ "_"
    match extractWgsl? wgsl other with
    | some code => .ok (other, code)
    | none => .error (.lostInTranslation name wgsl)

/-- The name and the text in WGSL of a GLSL function that has a name. -/
def Declaration.translate (t : Translator) (f : Declaration) (name : String)
    (includes : List String) : Except DialectError (String × String) :=
  match f.foreignFault? name with
  | some e => .error e
  | none =>
    match translateModule t (entryModule f name includes) with
    | .ok wgsl => cutOut wgsl name
    | .error e => .error e

/-! ### Small facts -/

/-- A function keeps its name or has a `_` behind it. -/
theorem cutOut_name {wgsl name : String} {r : String × String} (h : cutOut wgsl name = .ok r) :
    r.1 = name ∨ r.1 = name ++ "_" := by
  unfold cutOut at h
  split at h
  · simp only [Except.ok.injEq] at h
    simp [← h]
  · dsimp only at h
    split at h
    · simp only [Except.ok.injEq] at h
      simp [← h]
    · cases h

/-- A translated function keeps its name or has a `_` behind it. -/
theorem Declaration.translate_name {t : Translator} {f : Declaration} {name : String}
    {includes : List String} {r : String × String} (h : f.translate t name includes = .ok r) :
    r.1 = name ∨ r.1 = name ++ "_" := by
  unfold translate at h
  split at h
  · cases h
  · split at h
    · exact cutOut_name h
    · cases h

end ShaderGraph.Native
