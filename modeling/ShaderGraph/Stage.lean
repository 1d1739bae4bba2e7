/-!
# Stages, dialects and cadences

The small vocabularies of a shader build.

* `Stage` is one of the three programs a build can generate, in generation order.
* `Dialect` is the language they are written in.
* `Cadence` says how often the value behind a node is refreshed.
* `Interpolation` and `Sampling` say how a value travels between two stages.
* `Access` says what a program may do with a storage buffer.
-/

namespace ShaderGraph

/-- A programmable stage. -/
inductive Stage where
  | vertex
  | fragment
  | compute
deriving DecidableEq, Repr

namespace Stage

/-- The stages in generation order. -/
def all : List Stage := [.vertex, .fragment, .compute]

/-- The name of a stage. -/
def name : Stage → String
  | .vertex => "vertex"
  | .fragment => "fragment"
  | .compute => "compute"

/-- The stage with the given name. -/
def ofName? (s : String) : Option Stage := all.find? fun t => t.name = s

theorem mem_all (s : Stage) : s ∈ all := by cases s <;> decide

end Stage

/-- A shading language. -/
inductive Dialect where
  | glsl
  | wgsl
deriving DecidableEq, Repr

namespace Dialect

/-- The name of a dialect, which is also the extension of its files. -/
def name : Dialect → String
  | .glsl => "glsl"
  | .wgsl => "wgsl"

/-- The dialect with the given name. -/
def ofName? (s : String) : Option Dialect := [glsl, wgsl].find? fun d => d.name = s

/-- The name of a dialect as messages write it. -/
def title : Dialect → String
  | .glsl => "Glsl"
  | .wgsl => "Wgsl"

end Dialect

/-- How often a renderer refreshes the value behind a node. -/
inductive Cadence where
  | none
  /-- Once in each frame. -/
  | frame
  /-- Once in each render call. -/
  | render
  /-- For each object drawn. -/
  | object
deriving DecidableEq, Repr

namespace Cadence

/-- The name of a cadence. -/
def name : Cadence → String
  | .none => "none"
  | .frame => "frame"
  | .render => "render"
  | .object => "object"

/-- The cadence with the given name. -/
def ofName? (s : String) : Option Cadence :=
  [none, frame, render, object].find? fun c => c.name = s

/-- The name of a cadence as messages write it. -/
def title : Cadence → String
  | .none => "None"
  | .frame => "Frame"
  | .render => "Render"
  | .object => "Object"

/-- The group of a uniform that names none. -/
def defaultGroup : Cadence → String
  | .none | .object => "object"
  | .render => "render"
  | .frame => "frame"

end Cadence

/-- How a value is interpolated between vertices. -/
inductive Interpolation where
  | perspective
  | linear
  | flat
deriving DecidableEq, Repr

namespace Interpolation

/-- The name of an interpolation. -/
def name : Interpolation → String
  | .perspective => "perspective"
  | .linear => "linear"
  | .flat => "flat"

/-- The interpolation with the given name. -/
def ofName? (s : String) : Option Interpolation :=
  [perspective, linear, flat].find? fun i => i.name = s

end Interpolation

/-- Where in a fragment an interpolated value is taken. -/
inductive Sampling where
  | center
  | centroid
  | sample
deriving DecidableEq, Repr

namespace Sampling

/-- The name of a sampling location. -/
def name : Sampling → String
  | .center => "center"
  | .centroid => "centroid"
  | .sample => "sample"

/-- The sampling location with the given name. -/
def ofName? (s : String) : Option Sampling :=
  [center, centroid, sample].find? fun p => p.name = s

end Sampling

/-- What a program may do with a storage buffer. -/
inductive Access where
  | read
  | readWrite
deriving DecidableEq, Repr

namespace Access

/-- The name of an access. -/
def name : Access → String
  | .read => "read"
  | .readWrite => "read_write"

/-- The access with the given name. -/
def ofName? (s : String) : Option Access := [read, readWrite].find? fun a => a.name = s

end Access

end ShaderGraph
