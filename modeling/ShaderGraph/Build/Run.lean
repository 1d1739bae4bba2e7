import ShaderGraph.Build.Assemble

/-!
# Builds

`build` compiles the stages of a graph that a request names: it makes a plan, analyses every
stage, generates every stage and puts the programs together. What the host around the build
brings, it brings at three points: when custom nodes are replaced, when GLSL functions come into a
WGSL program, and when the programs are checked.
-/

namespace ShaderGraph

namespace Build

/-- Runs a step at the root of a stage. -/
def atRoot (p : Plan) (active : List Stage) (stage : Stage) (step : Build Unit)
    (s : BuildState) : Except Failure BuildState :=
  match step (Env.root p active stage) s with
  | .ok (_, s) => .ok s
  | .error f => .error f

/-- Runs a step at the root of each stage in turn. -/
def atRoots (p : Plan) (active : List Stage) (step : NodeId → Build Unit) :
    List (Stage × NodeId) → BuildState → Except Failure BuildState
  | [], s => .ok s
  | (stage, root) :: rest, s =>
    match atRoot p active stage (step root) s with
    | .ok s => atRoots p active step rest s
    | .error f => .error f

/-- Analyses and generates the stages of a plan. -/
def run (p : Plan) (roots : List (Stage × NodeId)) : Except Failure BuildState :=
  let active := roots.map Prod.fst
  match atRoots p active analyze roots (BuildState.start p) with
  | .ok s => atRoots p active generateStage roots s
  | .error f => .error f

end Build

/-- Compiles the stages of a graph that a request names. -/
def build (g : Graph) (request : BuildRequest) (options : BuildOptions)
    (host : Host := .plain) : Except Failure Artifact :=
  let roots := request.roots
  if roots.isEmpty then .error (.refused (.ofCause GraphError.noRoots))
  else match Plan.make g options (roots.map Prod.snd) host with
    | .error e => .error (.refused e)
    | .ok p =>
      match Build.run p roots with
      | .error f => .error f
      | .ok s =>
        match s.artifact p (roots.map Prod.fst) with
        | .ok a => .ok a
        | .error e => .error (.refused e)

end ShaderGraph
