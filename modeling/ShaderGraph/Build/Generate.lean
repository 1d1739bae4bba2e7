import ShaderGraph.Build.Analysis
import ShaderGraph.Build.Control

/-!
# Generation

`generateNode` chooses the step for a node, `generator` ties the steps together, and
`generateStage` generates the program of a stage from its root.
-/

namespace ShaderGraph.Build

/-- A step without a value. -/
def withoutValue (step : Build Unit) : Build (Option Expr) := do
  step
  return none

/-- The code of a node. -/
def generateNode (g : Generator) (id : NodeId) : Node → Build (Option Expr)
  | .const type values => some <$> buildConstant type values
  | .uniform name type group update value => do
    let (group, u) ← registerUniform id name type group update value
    some <$> useUniform group u
  | .meshAttribute name type => some <$> buildAttribute name type
  | .varying source name interpolation sampling =>
    some <$> buildVarying g id source name interpolation sampling
  | .property name type => some <$> buildProperty name type
  | .builtin b => some <$> useBuiltin b
  | .texture name uv level => buildTemp id (some <$> buildTexture g name uv level)
  | .storageBuffer name element count access => some <$> buildStorage name element count access
  | .var value name readOnly => some <$> buildVariable g id value name readOnly
  | .assign target value op => withoutValue (buildAssign g target value op)
  | .operator op left right => buildTemp id (some <$> buildOperator g op left right)
  | .unary op operand => buildTemp id (buildUnary g op operand)
  | .math method args => buildTemp id (some <$> buildMath g id method args)
  | .split source components => buildSplit g source components
  | .join parts _ => buildTemp id (some <$> buildJoin g id parts)
  | .convert source target => buildTemp id (buildConvert g source target)
  | .conditional condition thenNode elseNode => buildConditional g id condition thenNode elseNode
  | .loop params body => withoutValue (buildLoop g id params body)
  | .loopIndex loop param => some <$> buildCounter loop param
  | .jump j => withoutValue (buildJump j)
  | .stack nodes output => buildStack g nodes output
  | .structType name _ => fail (TypeError.layoutAsValue name)
  | .struct _ values => buildTemp id (some <$> buildStruct g id values)
  | .array element values => buildTemp id (some <$> buildArray g element values)
  | .member base name => buildMember g base name
  | .index base i => buildIndex g base i
  | .context inner values => inContext id values (g.emit inner)
  | .contextValue key fallback => withContextValue key fallback g.emit
  | .cache inner shares => do inScope (← cacheScope id shares) (g.emit inner)
  | .call function args => buildCall g id function args
  | .remap .. | .custom _ => fail GraphError.unexpandedCode

/-- The visit at a node that begins in the state `s` and ends with `code`. -/
def visitAt (env : Env) (s : BuildState) (id : NodeId) (code : Option Expr) : Visit where
  scope := env.scope
  key := s.cache.key env.scope id (some env.stage)
  frames := env.frames
  bound := (s.cache.get? env.scope id (some env.stage)).bind CacheRecord.bound
  blocks := (s.stages.get env.stage).openBlocks
  entry := s.stages.get env.stage
  loops := env.loops
  since := s.visits.length
  code := code

/-- Remembers a visit that began in the state `s`. -/
def recordVisit (s : BuildState) (id : NodeId) (code : Option Expr) : Build Unit := do
  let env ← read
  modify fun s' => { s' with visits := visitAt env s id code :: s'.visits }

/-- The code of the node that is built in the place of `id`. -/
def emitNode (g : Generator) (id : NodeId) : Build (Option Expr) := do
  let id ← resolve id
  -- a visit is asked for in this state and logged after those below it
  let before ← get
  let code ← located id do generateNode g id (← node id)
  recordVisit before id code
  return code

/-- How nodes are generated; `fuel` bounds the depth of the recursion. -/
def generator : Nat → Generator
  | 0 => ⟨fun _ => exhaust, fun _ => exhaust⟩
  | fuel + 1 =>
    ⟨fun id => emitNode (generator fuel) id, fun id => buildPlace (generator fuel) id⟩

/-- The value of the root of a stage: a position or a color. A compute root is generated for
its statements. -/
def generateRoot (stage : Stage) (root : NodeId) : Build (Option Expr) := do
  let g := generator (← depthBound)
  match stage with
  | .vertex | .fragment => some <$> g.value root .vec4
  | .compute =>
    if (← g.emit root).isSome then discard <| typeOf root
    return none

/-- Generates the program of the current stage from its root. -/
def generateStage (root : NodeId) : Build Unit := do
  let output ← generateRoot (← stage) root
  modifyHere fun b => { b with output := output }

end ShaderGraph.Build
