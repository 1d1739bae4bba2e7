import ShaderGraph.Build.Place

/-!
# Control flow and calls

* A conditional whose branches need no statements is a choice between two expressions; any
  other one becomes a branch that writes its result into a variable.
* Each level of a loop becomes a loop of its own, whose counter holds its name only while the
  loop is open.
* The result of a native function is always bound to a name, so that the call runs once.
-/

namespace ShaderGraph.Build

/-! ### Conditionals -/

/-- Whether a node itself adds statements. -/
def isImpure : Node → Bool
  | .assign .. | .call .. | .loop .. | .jump _ | .var .. => true
  | .stack nodes _ => !nodes.isEmpty
  | .conditional _ _ elseNode => elseNode.isNone
  | _ => false

/-- Whether none of the nodes in a list, nor any node that they refer to, adds statements. -/
def arePureFrom (p : Plan) : Nat → List NodeId → List NodeId → Except GraphError Bool
  | 0, _, _ => .ok true
  | _, [], _ => .ok true
  | fuel + 1, id :: rest, seen =>
    match p.resolve id with
    | .error e => .error e
    | .ok id =>
      if seen.contains id then arePureFrom p fuel rest seen
      else match p.node id with
        | .error e => .error e
        | .ok n =>
          if isImpure n then .ok false else arePureFrom p fuel (n.children ++ rest) (id :: seen)

/-- Whether none of some nodes, nor any node that they refer to, adds statements. -/
def arePure (ids : List NodeId) : Build Bool := do
  let p := (← read).plan
  ofExcept (arePureFrom p (ids.length + Plan.referenceCount p.graph + 1) ids [])

/-- The statements of a branch that leaves its value in a variable. -/
def buildBranch (g : Generator) (result : String) (type : ValueType) (id : NodeId) :
    Build (List Statement) :=
  inBlock do addStatement (.assign (localName result) (← g.value id type))

/-- A conditional with a value. -/
def buildChoice (g : Generator) (id : NodeId) (type : ValueType) (condition : Expr)
    (thenNode elseNode : NodeId) : Build (Option Expr) := do
  -- both sides of a choice are evaluated, so neither may add statements
  if ← arePure [thenNode, elseNode] then
    buildTemp id do
      let t ← g.value thenNode type
      let e ← g.value elseNode type
      return some (.select condition t e)
  else
    let result ← declareTemp type none .mutable
    let t ← buildBranch g result type thenNode
    let e ← buildBranch g result type elseNode
    addStatement (.branch condition t (some e))
    bindValue id result
    return some (localName result)

/-- A conditional. -/
def buildConditional (g : Generator) (id condition thenNode : NodeId)
    (elseNode : Option NodeId) : Build (Option Expr) := do
  match ← boundName? id with
  | some name => return some (localName name)
  | none =>
    let type ← typeOf id
    let condition ← g.value condition .bool
    match elseNode with
    | none =>
      let t ← inBlock (g.statement thenNode)
      addStatement (.branch condition t none)
      return none
    | some elseNode =>
      if type = .void then
        let t ← inBlock (g.statement thenNode)
        let e ← inBlock (g.statement elseNode)
        addStatement (.branch condition t (some e))
        return none
      buildChoice g id type condition thenNode elseNode

/-! ### Loops -/

/-- The names of loop counters by depth. -/
def counterNames : List String := ["i", "j", "k", "l", "m", "n"]

/-- The name that the counter of a loop asks for. -/
def counterName (name : Option String) (depth : Nat) : String :=
  name.getD (counterNames.getD depth ("i" ++ toString depth))

/-- Checks a level of a loop; the result is the kind of its counter and its step. -/
def checkLevel (p : LoopParam NodeId) : Except TypeError (ScalarKind × Float) :=
  match p.type with
  | .scalar kind =>
    let condition := p.resolvedCondition
    let step := p.step.abs
    if kind = .bool then .error (.loopCounter p.type)
    else if !condition.isComparison || condition = .eq then .error (.loopCondition condition)
    else if step == 0 || !step.isFinite then .error .loopStep
    else .ok (kind, step)
  | t => .error (.loopCounter t)

/-- An end of the range of a loop. -/
def buildBound (g : Generator) (type : ValueType) (kind : ScalarKind) :
    LoopBound NodeId → Build Expr
  | .value v => return .literal kind v
  | .node id => g.value id type

/-- The levels of a loop from the `level`-th on, with the body inside the last. -/
def buildLevels (g : Generator) (id : NodeId) (body : Option NodeId) :
    Nat → List (LoopParam NodeId) → Build Unit
  | _, [] =>
    match body with
    | some body => g.statement body
    | none => return
  | level, p :: rest => do
    let (kind, step) ← ofExcept (checkLevel p)
    let counter ← claimLocal (counterName p.name (← read).loops.length)
    useType p.type
    let start ← buildBound g p.type kind p.start
    let stop ← buildBound g p.type kind p.stop
    let inner ← inLoop ⟨id, level, counter⟩ (inBlock (buildLevels g id body (level + 1) rest))
    -- loops side by side share the names of their counters
    releaseLocal counter
    addStatement (.loop counter p.type start p.resolvedCondition stop step inner)

/-- A loop. -/
def buildLoop (g : Generator) (id : NodeId) (params : List (LoopParam NodeId))
    (body : Option NodeId) : Build Unit := do
  if params.isEmpty then fail TypeError.loopWithoutParam
  buildLevels g id body 0 params

/-- The counter of a loop around the node. -/
def buildCounter (loop : NodeId) (param : Nat) : Build Expr := do
  let loop ← resolve loop
  match (← read).loops.find? fun l => l.node = loop ∧ l.param = param with
  | some l => return localName l.counter
  | none => fail ScopeError.loopIndex

/-- A jump, which needs a loop around it. -/
def buildJump (j : Jump) : Build Unit := do
  if (← read).loops.isEmpty then fail (ScopeError.jump j)
  addStatement (.jump j)

/-- Statements in sequence and the value after them. -/
def buildStack (g : Generator) (nodes : List NodeId) (output : Option NodeId) :
    Build (Option Expr) := do
  nodes.forM g.statement
  match output with
  | some output => g.emit output
  | none => return none

/-! ### Calls -/

/-- An argument of a call. What the function writes to must be a place of the very type. -/
def buildArgument (g : Generator) (function : String) (arg : NodeId) (p : Native.Parameter) :
    Build Expr := do
  if p.passing.isOutput then
    let (place, type) ← g.place arg
    if type ≠ p.valueType then
      fail (TypeError.outputArgument p.name function p.valueType type)
    return .address place
  else g.value arg p.valueType

/-- A call of a native function. -/
def buildCall (g : Generator) (id : NodeId) (function : FunctionId) (args : List NodeId) :
    Build (Option Expr) := do
  match ← boundName? id with
  | some name => return some (localName name)
  | none =>
    let f ← registerFunction function
    if f.inputs.length ≠ args.length then
      fail (TypeError.callArity f.name f.inputs.length args.length)
    useFunction function
    let values ← (args.zip f.inputs).mapM fun a => buildArgument g f.name a.1 a.2
    if f.result = .void then
      addStatement (.call f.name values)
      return none
    let name ← declareTemp f.result (some (.call f.name values)) .immutable
    bindValue id name
    return some (localName name)

end ShaderGraph.Build
