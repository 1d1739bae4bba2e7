import ShaderGraph.Node.Basic
import ShaderGraph.OrderedMap
import ShaderGraph.Program.Basic

/-!
# Requests and options

What a build is asked for: the root of each stage, the dialect and a few settings.
-/

namespace ShaderGraph

/-- The settings of a build. -/
structure BuildOptions where
  dialect : Dialect
  /-- The types of the attributes that a mesh has. -/
  attributes : OrderedMap String ValueType
  workgroup : WorkgroupSize
  /-- How many rounds of expansion there are at most, and how long a chain of them is. -/
  maxDepth : Nat
  /-- Whether the programs are validated. -/
  validate : Bool

namespace BuildOptions

/-- The attributes that every mesh has. -/
def meshAttributes : List (String × ValueType) :=
  [("position", .vec3), ("normal", .vec3), ("uv", .vec2)]

/-- The settings where nothing is asked for. -/
def standard : BuildOptions where
  dialect := .wgsl
  attributes := .ofList meshAttributes
  workgroup := ⟨64, 1, 1⟩
  maxDepth := 64
  validate := false

end BuildOptions

/-- The roots of the stages that a build is asked for. -/
structure BuildRequest where
  vertex : Option NodeId
  fragment : Option NodeId
  compute : Option NodeId
deriving DecidableEq, Repr

namespace BuildRequest

/-- The root of a stage. -/
def root? (r : BuildRequest) : Stage → Option NodeId
  | .vertex => r.vertex
  | .fragment => r.fragment
  | .compute => r.compute

/-- The stages that are asked for with their roots, in generation order. -/
def roots (r : BuildRequest) : List (Stage × NodeId) :=
  Stage.all.filterMap fun s => (r.root? s).map fun id => (s, id)

/-- The stages that are asked for. -/
def stages (r : BuildRequest) : List Stage := r.roots.map Prod.fst

end BuildRequest

end ShaderGraph
