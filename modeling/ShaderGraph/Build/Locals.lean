import ShaderGraph.Build.TypeOf

/-!
# Locals and blocks

The names and statements of an entry point while it is generated.

* `addStatement` puts a statement at the end of the innermost open block, `inBlock` collects the
  statements of a step in a block of their own.
* `boundName?` is the name that the value of a node is bound to, as long as the block of its
  declaration is open and, unless it is a variable, under the context it was computed in.
* `buildTemp` binds the value of a node that is referred to more than once.
-/

namespace ShaderGraph.StageBuild

/-! ### Blocks -/

/-- Puts a statement at the end of the innermost open block of a stage. -/
def add (b : StageBuild) (s : Statement) : StageBuild :=
  match b.inner with
  | [] => { b with outer := { b.outer with statements := b.outer.statements ++ [s] } }
  | block :: rest =>
    { b with inner := { block with statements := block.statements ++ [s] } :: rest }

/-- Opens a block. -/
def openBlock (b : StageBuild) : StageBuild :=
  { b with inner := ⟨⟨b.nextBlock⟩, []⟩ :: b.inner, nextBlock := b.nextBlock + 1 }

/-- The statements of the innermost block. -/
def innerStatements (b : StageBuild) : List Statement :=
  match b.inner with
  | [] => []
  | block :: _ => block.statements

/-- Closes the innermost block. -/
def closeBlock (b : StageBuild) : StageBuild := { b with inner := b.inner.tail }

/-- The innermost open block. -/
def currentBlock (b : StageBuild) : BlockId :=
  match b.inner with
  | [] => b.outer.id
  | block :: _ => block.id

/-- The blocks that are open, innermost first. -/
def openBlocks (b : StageBuild) : List BlockId := b.inner.map Block.id ++ [b.outer.id]

/-- Whether a block is open. -/
def isOpen (b : StageBuild) (id : BlockId) : Bool :=
  b.outer.id = id || b.inner.any fun block => block.id = id

end ShaderGraph.StageBuild

namespace ShaderGraph.Build

/-! ### Names -/

/-- Takes a name inside the entry point. It differs from the names that all stages share. -/
def claimLocal (preferred : String) : Build String := do
  let stage := (← read).stage
  modifyGet fun s =>
    let (name, names) := (s.stages.get stage).names.claim s.globals preferred
    (name, { s with stages := s.stages.modify stage fun b => { b with names := names } })

/-- Frees a name inside the entry point. -/
def releaseLocal (name : String) : Build Unit :=
  modifyHere fun b => { b with names := b.names.release name }

/-- Takes the next numbered name. -/
def claimTemp : Build String := do
  let stage := (← read).stage
  modifyGet fun s =>
    let b := s.stages.get stage
    let (name, counter, names) := b.names.claimNumbered s.globals "nodeVar" b.tempCounter
    (name, { s with
      stages := s.stages.modify stage fun b =>
        { b with names := names, tempCounter := counter } })

/-! ### Statements -/

/-- Puts a statement at the end of the innermost open block. -/
def addStatement (s : Statement) : Build Unit := modifyHere fun b => b.add s

/-- A step whose statements go into a block of their own. -/
def inBlock (step : Build Unit) : Build (List Statement) := do
  modifyHere StageBuild.openBlock
  step
  let statements := (← here).innerStatements
  modifyHere StageBuild.closeBlock
  return statements

/-! ### Values bound to names -/

/-- Whether a name can be used for a value at this place. -/
def isVisible (bound : BoundName) : Build Bool := do
  let frame := Frame.current (← read).frames
  -- a variable is bound without a frame: no context is another one for it
  let other := match bound.frame with
    | some f => f ≠ frame
    | none => false
  return !other && (← here).isOpen bound.block

/-- Where the record of a node is kept. -/
def recordKey (id : NodeId) : Build CacheKey := do
  let env ← read
  return (← get).cache.key env.scope id (some env.stage)

/-- The name that the value of a node is bound to. -/
def boundName? (id : NodeId) : Build (Option String) := do
  let env ← read
  match ((← get).cache.get? env.scope id (some env.stage)).bind CacheRecord.bound with
  | some bound => return if ← isVisible bound then some bound.name else none
  | none => return none

/-- Remembers the name that a node is bound to in the current block. -/
def bindName (id : NodeId) (name : String) (frame : Option FrameId) : Build Unit := do
  let env ← read
  let bound : BoundName := ⟨name, (← here).currentBlock, frame⟩
  modify fun s => { s with cache := s.cache.bind env.scope id (some env.stage) bound }

/-- Remembers the name of a value that was computed under the current context. -/
def bindValue (id : NodeId) (name : String) : Build Unit := do
  bindName id name (some (Frame.current (← read).frames))

/-- Remembers the name of a variable, which is the same under every context. -/
def bindVariable (id : NodeId) (name : String) : Build Unit := bindName id name none

/-- A local by name. -/
def localName (name : String) : Expr := .reference (.local name)

/-- Declares a local with a numbered name. -/
def declareTemp (type : ValueType) (init : Option Expr) (m : Mutability) : Build String := do
  useType type
  let name ← claimTemp
  addStatement (.declare name type init m none)
  return name

/-- How often a node is referred to in the current scope and stage. -/
def usage (id : NodeId) : Build Nat := do
  let env ← read
  return (← get).cache.usage env.scope id (some env.stage)

/-- The value of a node that `step` computes; it is bound to a name when the node is referred to
more than once. -/
def buildTemp (id : NodeId) (step : Build (Option Expr)) : Build (Option Expr) := do
  match ← boundName? id with
  | some name => return some (localName name)
  | none =>
    let e ← step
    let type ← typeOf id
    match e with
    | none => return none
    | some e =>
      -- analysis counted the references; what is referred to once stays in its place
      if type = .void || (← usage id) ≤ 1 then return some e
      let name ← declareTemp type (some e) .immutable
      bindValue id name
      return some (localName name)

end ShaderGraph.Build
