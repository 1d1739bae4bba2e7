import ShaderGraph.Layout.Uniform
import ShaderGraph.Program.Source
import ShaderGraph.Update

/-!
# Artifacts

What a successful build hands over: the programs and what a renderer needs to feed them.

* `Resource` is something that is bound at a number; a texture and its sampler are two.
* `Artifact.source?` is the source of a stage.
-/

namespace ShaderGraph

/-- A uniform that a build refers to. -/
structure UniformInput where
  name : String
  type : ValueType
  group : String
  update : Cadence
  value : List Float32
  node : NodeId

/-- A vertex attribute that a program reads. -/
structure AttributeInput where
  name : String
  type : ValueType
  location : Nat
deriving DecidableEq, Repr

/-- A value that travels from the vertex to the fragment program. -/
structure VaryingLink where
  name : String
  type : ValueType
  location : Nat
  interpolation : Interpolation
  sampling : Option Sampling
deriving DecidableEq, Repr

/-- A native function and the stages that declare it. -/
structure NativeCode where
  name : String
  code : String
  stages : List Stage
deriving DecidableEq, Repr

/-- A uniform buffer. -/
structure UniformBuffer where
  group : String
  block : String
  binding : Nat
  cadence : Cadence
  size : Nat
  members : List Layout.Placed
  visibility : List Stage

/-- The bytes of the defaults of a uniform buffer. -/
def UniformBuffer.packed (b : UniformBuffer) : List UInt8 := Layout.pack b.size b.members

/-- Something bound at a number; `visibility` lists the stages that declare it. -/
inductive Resource where
  | uniformBuffer (buffer : UniformBuffer)
  | texture (name : String) (binding : Nat) (visibility : List Stage)
  | sampler (name : String) (binding : Nat) (visibility : List Stage)
  | storageBuffer (name : String) (binding : Nat) (element : ValueType) (count : Option UInt32)
      (readOnly : Bool) (visibility : List Stage)

/-- The number that a resource is bound at. -/
def Resource.binding : Resource → Nat
  | .uniformBuffer b => b.binding
  | .texture _ binding _ | .sampler _ binding _ | .storageBuffer _ binding .. => binding

/-- What a successful build hands over. -/
structure Artifact where
  dialect : Dialect
  /-- The programs of the stages that were asked for. -/
  programs : List Program
  attributes : List AttributeInput
  bindings : List Resource
  uniforms : List UniformInput
  varyings : List VaryingLink
  codes : List NativeCode
  updates : List UpdateRecord
  /-- What is refreshed ahead of the others. -/
  updatesBefore : List UpdateRecord

/-- The program of a stage. -/
def Artifact.program? (a : Artifact) (stage : Stage) : Option Program :=
  a.programs.find? fun p => p.stage = stage

/-- The source of a stage. -/
def Artifact.source? (a : Artifact) (stage : Stage) : Option String :=
  (a.program? stage).map (Program.source a.dialect)

end ShaderGraph
