import ShaderGraph.Build.Varying

/-!
# Analysis

`analyze` walks over all that the root of a stage refers to, counts how often each node is
referred to in each cache scope and stage, and enters the inputs of the stage into their tables.
A node that was met before is counted and not walked again; a node that is met below itself is
refused.
-/

namespace ShaderGraph.Build

/-- Walks on from a node to those it refers to. -/
def analyzeNode (analyze : NodeId → Build Unit) (id : NodeId) (n : Node) : Build Unit := do
  match n with
  | .cache inner shares =>
    let scope ← cacheScope id shares
    inScope scope (analyze inner)
  | .context inner values => inContext id values (analyze inner)
  | .contextValue key fallback => withContextValue key fallback analyze
  | .varying source name interpolation sampling =>
    discard <| registerVarying id source name interpolation sampling
    inStage .vertex (analyze source)
  | .uniform name type group update value =>
    discard <| registerUniform id name type group update value
  | .meshAttribute name type => discard <| registerAttribute name type
  | .storageBuffer name element count access =>
    discard <| registerStorage name element count access
  | .texture name .. =>
    discard <| registerTexture name
    n.children.forM analyze
  | .call f args =>
    discard <| registerFunction f
    args.forM analyze
  | _ => n.children.forM analyze

/-- Counts a reference to a node in the current scope and stage; the result is how many there
are now. -/
def countReference (id : NodeId) : Build Nat := do
  let env ← read
  modifyGet fun s =>
    let cache := s.cache.count env.scope id (some env.stage)
    (cache.usage env.scope id (some env.stage), { s with cache := cache })

/-- A step below a node, which must not be met again on the way. -/
def below {α : Type} (id : NodeId) (step : Build α) : Build α :=
  withReader (fun env => { env with path := id :: env.path }) (located id step)

/-- Walks over a node and all that it refers to; `fuel` bounds the length of the path. -/
def analyzeIn : Nat → NodeId → Build Unit
  | 0, _ => exhaust
  | fuel + 1, id => do
    let id ← resolve id
    if (← read).path.contains id then located id (fail (GraphError.cycle id))
    -- counted before: what is below was walked over, under the contexts of that time
    if (← countReference id) = 1 then
      below id do analyzeNode (analyzeIn fuel) id (← node id)

/-- Walks over a node and all that it refers to. The nodes on a path are all different. -/
def analyze (id : NodeId) : Build Unit := do
  analyzeIn ((← read).plan.graph.size + 2) id

end ShaderGraph.Build
