import ShaderGraph.Artifact.Basic
import ShaderGraph.Build.Plan
import ShaderGraph.Cache

/-!
# The state of a build

What a build collects while it walks over the nodes of a plan.

* `StageBuild` is what belongs to one stage: the names of its entry point, the blocks that are
  open and what the stage declares.
* The entry tables (`GroupEntry`, `TextureEntry`, …) are shared by the stages; a number is given
  when a stage first refers to an entry.
* `BuildState` is all of it. `Env` is what a step of the walk sees but never changes: the stage,
  the cache scope, the context and the loops around it.
-/

namespace ShaderGraph

/-- Statements in braces. -/
structure Block where
  id : BlockId
  statements : List Statement

/-- What a build collects for one stage. -/
structure StageBuild where
  /-- The names inside the entry point. -/
  names : NameTable
  tempCounter : Nat
  /-- The blocks that are open inside the outermost one, innermost first. -/
  inner : List Block
  /-- The outermost block, which never closes. -/
  outer : Block
  nextBlock : Nat
  locals : List Statement
  properties : OrderedMap String (ValueType × String)
  structs : List String
  groups : List String
  textures : List String
  storage : List String
  attributes : List String
  varyings : List NodeId
  builtins : List Builtin
  functions : List FunctionId
  output : Option Expr

/-- A value for each stage. -/
structure PerStage (α : Type) where
  vertex : α
  fragment : α
  compute : α

namespace PerStage

variable {α : Type}

/-- The same value for each stage. -/
def replicate (a : α) : PerStage α := ⟨a, a, a⟩

/-- The value of a stage. -/
def get (p : PerStage α) : Stage → α
  | .vertex => p.vertex
  | .fragment => p.fragment
  | .compute => p.compute

/-- Changes the value of a stage. -/
def modify (p : PerStage α) (s : Stage) (f : α → α) : PerStage α :=
  match s with
  | .vertex => { p with vertex := f p.vertex }
  | .fragment => { p with fragment := f p.fragment }
  | .compute => { p with compute := f p.compute }

theorem get_modify (p : PerStage α) (s t : Stage) (f : α → α) :
    (p.modify s f).get t = if t = s then f (p.get t) else p.get t := by
  cases s <;> cases t <;> rfl

/-- What a change leaves alone in each value stays as it is. -/
theorem map_get_modify {β : Type} (p : PerStage α) (s t : Stage) {f : α → α} {g : α → β}
    (h : ∀ a, g (f a) = g a) : g ((p.modify s f).get t) = g (p.get t) := by
  rw [get_modify]
  split
  · exact h _
  · rfl

end PerStage

/-- What a uniform is known by. -/
structure UniformKey where
  name : String
  group : String
deriving DecidableEq, Repr

/-- A uniform. -/
structure UniformEntry where
  /-- The name of its member. -/
  member : String
  type : ValueType
  update : Cadence
  value : List Float32
  node : NodeId

/-- A group of uniforms. -/
structure GroupEntry where
  block : String
  inst : String
  cadence : Option Cadence
  members : List (String × ValueType)
  binding : Option Nat

/-- A texture; its sampler is bound right behind it. -/
structure TextureEntry where
  name : String
  sampler : String
  binding : Option Nat

/-- A storage buffer. -/
structure StorageEntry where
  name : String
  block : String
  element : ValueType
  count : Option UInt32
  access : Access
  binding : Option Nat

/-- A vertex attribute. -/
structure AttributeEntry where
  name : String
  type : ValueType
  location : Option Nat

/-- A varying. -/
structure VaryingEntry where
  name : String
  type : ValueType
  /-- The node whose value travels. -/
  source : NodeId
  interpolation : Interpolation
  sampling : Option Sampling
  /-- The location, once the vertex program writes the varying. -/
  location : Option Nat

/-- A native function. -/
structure FunctionEntry where
  /-- The name that the programs call it by. -/
  name : String
  /-- The name that it has in its own dialect. -/
  claimed : String
  inputs : List Native.Parameter
  result : ValueType
  /-- Its text in the programs. -/
  code : String
  /-- Its text in its own dialect. -/
  source : String
  includes : List FunctionId

/-- A loop around the node that is being built. -/
structure ActiveLoop where
  node : NodeId
  param : Nat
  counter : String
deriving DecidableEq, Repr

/-- An answer to the question for the code of a node. -/
structure Visit where
  /-- The cache scope around the question. -/
  scope : ScopeId
  /-- Where the record of the node is kept. -/
  key : CacheKey
  /-- The contexts around the question, innermost first. -/
  frames : List Frame
  /-- The name that the node was bound to when the question came. -/
  bound : Option BoundName
  /-- The blocks of the stage that were open when the question came. -/
  blocks : List BlockId
  /-- What its stage had collected when the question came. -/
  entry : StageBuild
  /-- The loops around the question, innermost first. -/
  loops : List ActiveLoop
  /-- How many questions had been answered when this one came. -/
  since : Nat
  code : Option Expr

/-- What a build collects. -/
structure BuildState where
  cache : NodeCache
  frames : FrameTable
  types : OrderedMap (NodeId × FrameId) ValueType
  /-- The names that all stages share. -/
  globals : NameTable
  stages : PerStage StageBuild
  uniforms : OrderedMap UniformKey UniformEntry
  groups : OrderedMap String GroupEntry
  textures : OrderedMap String TextureEntry
  storage : OrderedMap String StorageEntry
  attributes : OrderedMap String AttributeEntry
  varyings : OrderedMap NodeId VaryingEntry
  functions : OrderedMap FunctionId FunctionEntry
  nextBinding : Nat
  nextAttribute : Nat
  nextVarying : Nat
  varyingCounter : Nat
  updates : OrderedMap NodeId UpdateRecord
  /-- The nodes whose code was generated, the last one first. -/
  visits : List Visit

/-- What a step of a build sees but never changes. -/
structure Env where
  plan : Plan
  /-- The stages that are asked for. -/
  active : List Stage
  stage : Stage
  scope : ScopeId
  frames : List Frame
  /-- The loops around the node, innermost first. -/
  loops : List ActiveLoop
  /-- The nodes that are being analysed. -/
  path : List NodeId
  /-- The nodes whose type is being found. -/
  typing : List (NodeId × FrameId)

/-- Why a build ends without an artifact. -/
inductive Failure where
  | refused (error : BuildError)
  /-- The recursion went deeper than any that ends on its own. -/
  | exhausted

/-- The blocks of a stage before anything is generated. -/
def StageBuild.start : StageBuild where
  names := .empty
  tempCounter := 0
  inner := []
  outer := ⟨⟨0⟩, []⟩
  nextBlock := 1
  locals := []
  properties := .empty
  structs := []
  groups := []
  textures := []
  storage := []
  attributes := []
  varyings := []
  builtins := []
  functions := []
  output := none

/-- The state at the start of a build. -/
def BuildState.start (p : Plan) : BuildState where
  cache := .empty
  frames := .empty
  types := .empty
  globals := p.takenNames
  stages := .replicate .start
  uniforms := .empty
  groups := .empty
  textures := .empty
  storage := .empty
  attributes := .empty
  varyings := .empty
  functions := .empty
  nextBinding := 0
  nextAttribute := 0
  nextVarying := 0
  varyingCounter := 0
  updates := p.updates
  visits := []

/-- What the root of a stage sees. -/
def Env.root (p : Plan) (active : List Stage) (stage : Stage) : Env :=
  ⟨p, active, stage, .root, [], [], [], []⟩

/-- A step of a build. -/
abbrev Build := ReaderT Env (StateT BuildState (Except Failure))

namespace Build

/-- Ends the build. -/
def fail {α : Type} (c : Cause) : Build α := fun _ _ => .error (.refused (.ofCause c))

/-- Ends the build since the recursion is too deep. -/
def exhaust {α : Type} : Build α := fun _ _ => .error .exhausted

/-- Takes the value of a rule, or ends the build with its error. -/
def ofExcept {α ε : Type} [Coe ε Cause] : Except ε α → Build α
  | .ok a => pure a
  | .error e => fail e

/-- What an error reports when it passes through a node. -/
def locate (env : Env) (id : NodeId) : Failure → Failure
  | .refused e => .refused (e.located (env.plan.location id) env.stage)
  | .exhausted => .exhausted

/-- A step at a node; errors report the node. -/
def located {α : Type} (id : NodeId) (step : Build α) : Build α := fun env s =>
  match step env s with
  | .ok r => .ok r
  | .error f => .error (locate env id f)

/-! ### The plan -/

/-- The node that is built in the place of `id`. -/
def resolve (id : NodeId) : Build NodeId := do ofExcept ((← read).plan.resolve id)

/-- The node at a position. -/
def node (id : NodeId) : Build Node := do ofExcept ((← read).plan.node id)

/-- The dialect of the programs. -/
def dialect : Build Dialect := return (← read).plan.options.dialect

/-- The stage that is walked over. -/
def stage : Build Stage := return (← read).stage

/-- The members of a struct. -/
def structMembers (name : String) : Build (List Member) := do
  match (← read).plan.structs.get? name with
  | some members => return members
  | none => fail (LayoutError.undeclaredStruct name)

/-! ### Scopes -/

/-- A step inside a cache scope. -/
def inScope {α : Type} (scope : ScopeId) (step : Build α) : Build α :=
  withReader (fun env => { env with scope := scope }) step

/-- The scope of a cache node. -/
def cacheScope (id : NodeId) (shares : Bool) : Build ScopeId := do
  let scope := (← read).scope
  modifyGet fun s =>
    let (id, cache) := s.cache.scopeFor scope id shares
    (id, { s with cache := cache })

/-- A step that sees the values that a context node lends. -/
def inContext {α : Type} (id : NodeId) (values : List (String × NodeId)) (step : Build α) :
    Build α := do
  let frame := Frame.current (← read).frames
  let id ← modifyGet fun s =>
    let (id, frames) := s.frames.extend frame id
    (id, { s with frames := frames })
  withReader (fun env => { env with frames := ⟨id, values⟩ :: env.frames }) step

/-- A step at the value of a key. A value that a context lends sees only the contexts around
that one. -/
def withContextValue {α : Type} (key : String) (fallback : Option NodeId)
    (step : NodeId → Build α) : Build α := do
  match Frame.lookup? key (← read).frames with
  | some (node, outer) => withReader (fun env => { env with frames := outer }) (step node)
  | none =>
    match fallback with
    | some node => step node
    | none => fail (ScopeError.contextValue key)

/-- A step in a stage. In another stage the loops around do not count. -/
def inStage {α : Type} (stage : Stage) (step : Build α) : Build α := do
  if stage = (← read).stage then step
  -- the counters of the loops belong to the entry point of the other stage
  else withReader (fun env => { env with stage := stage, loops := [] }) step

/-- A step inside a loop. -/
def inLoop {α : Type} (l : ActiveLoop) (step : Build α) : Build α :=
  withReader (fun env => { env with loops := l :: env.loops }) step

/-! ### The current stage -/

/-- What was collected for the current stage. -/
def here : Build StageBuild := return (← get).stages.get (← read).stage

/-- Changes what was collected for the current stage. -/
def modifyHere (f : StageBuild → StageBuild) : Build Unit := do
  let stage := (← read).stage
  modify fun s => { s with stages := s.stages.modify stage f }

/-- Takes a name that all stages share. -/
def claimGlobal (preferred : String) : Build String :=
  modifyGet fun s =>
    let (name, globals) := s.globals.claim .empty preferred
    (name, { s with globals := globals })

/-- Takes a name that all stages share as it is, even if it is taken. -/
def reserveGlobal (name : String) : Build Unit :=
  modify fun s => { s with globals := s.globals.reserve name }

/-- Takes the next number that a resource is bound at; `count` of them. -/
def claimBinding (count : Nat) : Build Nat :=
  modifyGet fun s => (s.nextBinding, { s with nextBinding := s.nextBinding + count })

end Build

end ShaderGraph
