import ShaderGraph.Build.Run
import ShaderGraph.Document.Options

/-!
# Program caches

Builds that are remembered, so that a graph which has not changed is not built again.

* A build is known by its graph, the version of the graph, and a hash of the request and the
  options. The order in which the options list attributes does not matter.
* A change of version drops everything that was built from the graph before.
* A build that fails is not remembered, but counts as a miss.
-/

namespace ShaderGraph

/-- The request as a value. -/
def BuildRequest.toJson (r : BuildRequest) : Json :=
  let root := Json.ofOption fun id : NodeId => .nat id.index
  .object [("vertex", root r.vertex), ("fragment", root r.fragment), ("compute", root r.compute)]

/-- The FNV-1a hash of some bytes, 64 bits wide. -/
def fnv1a64 (bytes : List UInt8) : UInt64 :=
  bytes.foldl (fun hash b => (hash ^^^ b.toUInt64) * 0x00000100000001b3) 0xcbf29ce484222325

namespace ProgramCache

/-- What a build with the given request and options is told apart by. -/
def payload (request : BuildRequest) (options : BuildOptions) : Json :=
  (Json.object [("request", request.toJson), ("options", options.toJson)]).canonical

/-- The number that a build with the given request and options is known by. -/
def signature (request : BuildRequest) (options : BuildOptions) : UInt64 :=
  fnv1a64 (payload request options).compact.toUTF8.toList

end ProgramCache

/-- An artifact that is remembered. -/
structure CachedProgram where
  /-- A number that tells it from every other one. -/
  serial : Nat
  artifact : Artifact

/-- What was built from one version of a graph. -/
structure GraphPrograms where
  version : Nat
  programs : OrderedMap UInt64 CachedProgram

/-- The builds that are remembered. -/
structure ProgramCache where
  /-- The builds of each graph, by its number. -/
  graphs : OrderedMap Nat GraphPrograms
  hits : Nat
  misses : Nat

namespace ProgramCache

/-- The cache without builds. -/
def empty : ProgramCache := ⟨.empty, 0, 0⟩

/-- What is remembered of the current version of a graph. -/
def current (c : ProgramCache) (g : Graph) : GraphPrograms :=
  match c.graphs.get? g.uid with
  | some p => if p.version = g.version then p else ⟨g.version, .empty⟩
  | none => ⟨g.version, .empty⟩

/-- The artifact of a build, which is built if it is not remembered. -/
def getOrBuild (c : ProgramCache) (g : Graph) (request : BuildRequest) (options : BuildOptions)
    (host : Host := .plain) : Except Failure CachedProgram × ProgramCache :=
  let key := signature request options
  let known := c.current g
  match known.programs.get? key with
  | some p => (.ok p, { c with graphs := c.graphs.put g.uid known, hits := c.hits + 1 })
  | none =>
    let misses := c.misses + 1
    match build g request options host with
    | .error f => (.error f, { c with graphs := c.graphs.put g.uid known, misses := misses })
    | .ok a =>
      -- each miss makes one artifact at most, so the number of misses tells them apart
      let p : CachedProgram := ⟨misses, a⟩
      let known := { known with programs := known.programs.put key p }
      (.ok p, { c with graphs := c.graphs.put g.uid known, misses := misses })

/-- The number of artifacts that are remembered. -/
def size (c : ProgramCache) : Nat :=
  c.graphs.values.foldl (fun n p => n + p.programs.size) 0

/-- Whether nothing is remembered. -/
def isEmpty (c : ProgramCache) : Bool := c.size = 0

/-- Drops what was built from a graph. -/
def forget (c : ProgramCache) (uid : Nat) : ProgramCache :=
  { c with graphs := c.graphs.erase uid }

/-- Drops everything. -/
def clear (c : ProgramCache) : ProgramCache := { c with graphs := .empty }

/-! ### Small facts -/

/-- Each request counts once, as a hit or as a miss. -/
theorem hits_add_misses_getOrBuild (c : ProgramCache) (g : Graph) (request : BuildRequest)
    (options : BuildOptions) (host : Host) :
    (c.getOrBuild g request options host).2.hits +
        (c.getOrBuild g request options host).2.misses = c.hits + c.misses + 1 := by
  unfold getOrBuild
  dsimp only
  split
  · simp only
    omega
  · split <;> simp only <;> omega

end ProgramCache

end ShaderGraph
