import ShaderGraph.Program.Basic

/-!
# The source of a stage

`ProgramText.source` is the whole text of a stage: sections with an empty line between them,
the entry point last.

* In GLSL the sections are the version, the extent of the workgroup, the structs, the uniform
  blocks, the textures, the storage buffers, the inputs and outputs, and the native functions.
* In WGSL they are the structs, the uniform blocks, the textures and storage buffers, the
  native functions and, for a vertex program, its output record. Inputs are parameters.
-/

namespace ShaderGraph.ProgramText

/-- Lines under one another. -/
def unlines (ls : List String) : String := "\n".intercalate ls

/-- Lines between braces, with a text in front and behind. -/
def braced (front : String) (ls : List String) (behind : String) : String :=
  front ++ " \x7b\n" ++ unlines ls ++ "\n\x7d" ++ behind

/-- Lines as a section, if there are any. -/
def paragraph? (ls : List String) : List String := if ls.isEmpty then [] else [unlines ls]

/-- Sections with an empty line between them. -/
def join (sections : List String) : String := "\n\n".intercalate sections ++ "\n"

/-- The lines of an entry point. -/
def entryLines (ls : List String) : List String := Text.indentLines 1 ls

/-! ### GLSL -/

namespace Glsl

/-- The lines of members. -/
def members (ms : List (String × String)) : List String := ms.map fun m => s!"    {m.2} {m.1};"

/-- A struct. -/
def struct (s : StructDecl String) : String := braced s!"struct {s.name}" (members s.members) ";"

/-- A uniform block. -/
def uniformBlock (u : UniformBlock String) : String :=
  braced s!"layout(set = 0, binding = {u.binding}, std140) uniform {u.block}" (members u.members)
    ";"

/-- A texture and its sampler. -/
def texture (t : TextureDecl) : List String :=
  [s!"layout(set = 0, binding = {t.textureBinding}) uniform texture2D {t.name};",
   s!"layout(set = 0, binding = {t.samplerBinding}) uniform sampler {t.sampler};"]

/-- A storage buffer. -/
def storage (s : StorageDecl String) : String :=
  let access := if s.readOnly then "readonly " else ""
  let count := (s.count.map toString).getD ""
  braced s!"layout(set = 0, binding = {s.binding}, std430) {access}buffer {s.block}"
    [s!"    {s.element} {s.name}[{count}];"] ";"

/-- What stands in front of a varying. -/
def qualifiers (v : LocationDecl String) : String :=
  (match v.interpolation with
    | .perspective => ""
    | .linear => "noperspective "
    | .flat => "flat ") ++
  (match v.sampling with
    | some .centroid => "centroid "
    | some .sample => "sample "
    | _ => "")

/-- The inputs and outputs. -/
def interface (p : ProgramText) : List String :=
  let direction := if p.stage = .vertex then "out" else "in"
  (p.attributes.map fun a => s!"layout(location = {a.location}) in {a.type} {a.name};") ++
  (p.varyings.map fun v =>
    s!"layout(location = {v.location}) {qualifiers v}{direction} {v.type} {v.name};") ++
  if p.stage = .fragment then ["layout(location = 0) out vec4 fragColor;"] else []

/-- The lines that hand the result on. -/
def result (p : ProgramText) : List String :=
  let value := p.output.getD "vec4(0.0, 0.0, 0.0, 1.0)"
  match p.stage with
  | .vertex => [s!"gl_Position = {value};"]
  | .fragment => [s!"fragColor = {value};"]
  | .compute => []

/-- The source of a stage. -/
def source (p : ProgramText) : String :=
  let size := p.workgroup
  let extent := if p.stage = .compute then
      [s!"layout(local_size_x = {size.x}, local_size_y = {size.y}, local_size_z = {size.z}) in;"]
    else []
  join <|
    "#version 450" :: extent ++ p.structs.map struct ++ p.uniforms.map uniformBlock ++
      paragraph? (p.textures.flatMap texture) ++ p.storage.map storage ++
      paragraph? (interface p) ++ p.functions ++
      [braced "void main()" (entryLines (p.locals ++ p.body ++ result p)) ""]

end Glsl

/-! ### WGSL -/

namespace Wgsl

/-- The lines of members. -/
def members (ms : List (String × String)) : List String := ms.map fun m => s!"    {m.1}: {m.2},"

/-- A struct. -/
def struct (s : StructDecl String) : String := braced s!"struct {s.name}" (members s.members) ""

/-- A uniform block: its struct and the variable that holds it. -/
def uniformBlock (u : UniformBlock String) : String :=
  braced s!"struct {u.block}" (members u.members)
    s!"\n@group(0) @binding({u.binding}) var<uniform> {u.inst}: {u.block};"

/-- A texture and its sampler. -/
def texture (t : TextureDecl) : List String :=
  [s!"@group(0) @binding({t.textureBinding}) var {t.name}: texture_2d<f32>;",
   s!"@group(0) @binding({t.samplerBinding}) var {t.sampler}: sampler;"]

/-- A storage buffer. -/
def storage (s : StorageDecl String) : String :=
  let access := if s.readOnly then "read" else "read_write"
  let type := match s.count with
    | some n => s!"array<{s.element}, {n}>"
    | none => s!"array<{s.element}>"
  s!"@group(0) @binding({s.binding}) var<storage, {access}> {s.name}: {type};"

/-- The interpolation of a varying. Flat values are not sampled. -/
def interpolate (v : LocationDecl String) : String :=
  match v.interpolation, v.sampling with
  | .perspective, none => ""
  | .flat, _ => " @interpolate(flat)"
  | i, none => s!" @interpolate({i.name})"
  | i, some s => s!" @interpolate({i.name}, {s.name})"

/-- A varying as a parameter or as a member of the output record. -/
def varying (v : LocationDecl String) : String :=
  s!"@location({v.location}){interpolate v} {v.name}: {v.type}"

/-- The output record of a vertex program. -/
def outputRecord (p : ProgramText) : String :=
  braced "struct VertexOutput"
    ("    @builtin(position) position: vec4<f32>," ::
      p.varyings.map fun v => "    " ++ varying v ++ ",") ""

/-- A built-in input as a parameter. -/
def builtin (b : Builtin) : String :=
  let (mark, name, type) := Dialect.builtinParameter b
  s!"@builtin({mark}) {name}: {type}"

/-- The parameters of the entry point. -/
def parameters (p : ProgramText) : List String :=
  (match p.stage with
    | .vertex => p.attributes.map fun a => s!"@location({a.location}) {a.name}: {a.type}"
    | .fragment => p.varyings.map varying
    | .compute => []) ++
  p.builtins.map builtin

/-- The value of a program that computes none. -/
def noOutput : String := "vec4<f32>(0.0, 0.0, 0.0, 1.0)"

/-- The lines of the entry point. -/
def body (p : ProgramText) : List String :=
  let value := p.output.getD noOutput
  let inner := p.locals ++ p.body
  match p.stage with
  | .vertex =>
    "var output: VertexOutput;" :: inner ++ [s!"output.position = {value};", "return output;"]
  | .fragment => inner ++ [s!"return {value};"]
  | .compute => inner

/-- The marks of the entry point. -/
def marks (p : ProgramText) : String :=
  let size := p.workgroup
  match p.stage with
  | .vertex => "@vertex"
  | .fragment => "@fragment"
  | .compute => s!"@compute @workgroup_size({size.x}, {size.y}, {size.z})"

/-- The result type of the entry point. -/
def result : Stage → String
  | .vertex => " -> VertexOutput"
  | .fragment => " -> @location(0) vec4<f32>"
  | .compute => ""

/-- The source of a stage. -/
def source (p : ProgramText) : String :=
  let entry := marks p ++ "\nfn main" ++ Dialect.arguments (parameters p) ++ result p.stage
  join <|
    p.structs.map struct ++ p.uniforms.map uniformBlock ++
      paragraph? (p.textures.flatMap texture ++ p.storage.map storage) ++ p.functions ++
      (if p.stage = .vertex then [outputRecord p] else []) ++
      [braced entry (entryLines (body p)) ""]

end Wgsl

/-- The source of a stage in a dialect. -/
def source (d : Dialect) (p : ProgramText) : String :=
  match d with
  | .glsl => Glsl.source p
  | .wgsl => Wgsl.source p

end ShaderGraph.ProgramText

namespace ShaderGraph.Program

/-- The source of a stage in a dialect. -/
def source (d : Dialect) (p : Program) : String := (p.written d).source d

end ShaderGraph.Program
