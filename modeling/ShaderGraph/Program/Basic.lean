import ShaderGraph.Code.Statement

/-!
# Stage programs

Everything that the text of one stage consists of.

* `ProgramOf τ σ ε` is a program whose types are of type `τ`, whose statements are of type `σ`
  and whose expressions are of type `ε`.
* `Program` is a program as it is generated and `ProgramText` one whose parts are written
  already; `Program.written` goes from the first to the second.
-/

namespace ShaderGraph

/-- The declaration of a struct. -/
structure StructDecl (τ : Type) where
  name : String
  members : List (String × τ)
deriving DecidableEq, Repr

/-- The declaration of a uniform block. -/
structure UniformBlock (τ : Type) where
  block : String
  inst : String
  binding : Nat
  members : List (String × τ)
deriving DecidableEq, Repr

/-- The declaration of a texture and its sampler. -/
structure TextureDecl where
  name : String
  sampler : String
  textureBinding : Nat
  samplerBinding : Nat
deriving DecidableEq, Repr

/-- The declaration of a storage buffer. -/
structure StorageDecl (τ : Type) where
  name : String
  block : String
  binding : Nat
  element : τ
  count : Option UInt32
  readOnly : Bool
deriving DecidableEq, Repr

/-- An input or output of a stage at a location. -/
structure LocationDecl (τ : Type) where
  name : String
  location : Nat
  type : τ
  interpolation : Interpolation
  sampling : Option Sampling
deriving DecidableEq, Repr

/-- The extent of a workgroup. -/
structure WorkgroupSize where
  x : UInt32
  y : UInt32
  z : UInt32
deriving DecidableEq, Repr

/-- The program of one stage. -/
structure ProgramOf (τ σ ε : Type) where
  stage : Stage
  structs : List (StructDecl τ)
  uniforms : List (UniformBlock τ)
  textures : List TextureDecl
  storage : List (StorageDecl τ)
  /-- The inputs of a vertex program. -/
  attributes : List (LocationDecl τ)
  /-- What a vertex program writes and a fragment program reads. -/
  varyings : List (LocationDecl τ)
  builtins : List Builtin
  /-- The declarations of native functions. -/
  functions : List String
  /-- The declarations at the top of the entry point. -/
  locals : List σ
  body : List σ
  /-- The position of a vertex or the color of a fragment. -/
  output : Option ε
  workgroup : WorkgroupSize

/-- A program as it is generated. -/
abbrev Program := ProgramOf ValueType Statement Expr

/-- A program whose types, lines and output are written. -/
abbrev ProgramText := ProgramOf String String String

/-! ### Writing the parts -/

section

variable {τ υ : Type}

/-- Members with their types changed. -/
def mapMembers (f : τ → υ) (members : List (String × τ)) : List (String × υ) :=
  members.map fun m => (m.1, f m.2)

/-- A struct with its types changed. -/
def StructDecl.map (f : τ → υ) (s : StructDecl τ) : StructDecl υ :=
  ⟨s.name, mapMembers f s.members⟩

/-- A block with its types changed. -/
def UniformBlock.map (f : τ → υ) (u : UniformBlock τ) : UniformBlock υ :=
  ⟨u.block, u.inst, u.binding, mapMembers f u.members⟩

/-- A buffer with its type changed. -/
def StorageDecl.map (f : τ → υ) (s : StorageDecl τ) : StorageDecl υ :=
  ⟨s.name, s.block, s.binding, f s.element, s.count, s.readOnly⟩

/-- An input or output with its type changed. -/
def LocationDecl.map (f : τ → υ) (l : LocationDecl τ) : LocationDecl υ :=
  ⟨l.name, l.location, f l.type, l.interpolation, l.sampling⟩

end

/-- The program with its types, statements and output written in a dialect. -/
def Program.written (d : Dialect) (p : Program) : ProgramText where
  stage := p.stage
  structs := p.structs.map (StructDecl.map d.spelling)
  uniforms := p.uniforms.map (UniformBlock.map d.spelling)
  textures := p.textures
  storage := p.storage.map (StorageDecl.map d.spelling)
  attributes := p.attributes.map (LocationDecl.map d.spelling)
  varyings := p.varyings.map (LocationDecl.map d.spelling)
  builtins := p.builtins
  functions := p.functions
  locals := Statement.blockLines d p.locals
  body := Statement.blockLines d p.body
  output := p.output.map (Expr.text d)
  workgroup := p.workgroup

end ShaderGraph
