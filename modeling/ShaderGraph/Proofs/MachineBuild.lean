import ShaderGraph.Proofs.MachineCode

/-!
# Restored registers

A machine generates what a build generates, and restores its registers on the way: by cases on the
node, from what the steps of the nodes below it do.

* `Generator.Realizes` says that of the steps of the nodes below, and `Realizes.buildTemp` to
  `Realizes.generateNode` are the steps of one node.
* `registers_restored` is the run: after any call, however it ends, the registers and the open
  blocks are again what they were.
-/

namespace ShaderGraph.Machine

open Build

variable {α : Type}

/-- The steps of the nodes below do what those of a build do. -/
structure Generator.Realizes (m : Machine.Generator) (g : ShaderGraph.Generator) : Prop where
  emit : ∀ id, Machine.Realizes [] (m.emit id) (g.emit id)
  place : ∀ id, Machine.Realizes [] (m.place id) (g.place id)

namespace Realizes

/-! ### Steps at the current stage -/

theorem dialect : Realizes [] (liftM Build.dialect : Step Dialect) Build.dialect :=
  .lift fun _ => .dialect

theorem stage : Realizes [] (liftM Build.stage : Step Stage) Build.stage := .lift fun _ => .stage

theorem structMembers (name : String) :
    Realizes [] (liftM (Build.structMembers name) : Step (List Member))
      (Build.structMembers name) := by
  refine .lift fun env => ?_
  rw [← bind_pure (Build.structMembers name)]
  exact .structMembers fun members _ => .pure members

theorem boundName? (id : NodeId) :
    Realizes [] (liftM (Build.boundName? id) : Step (Option String)) (Build.boundName? id) :=
  .lift fun _ => .boundName? id

theorem useType (type : ValueType) :
    Realizes [] (liftM (Build.useType type) : Step Unit) (Build.useType type) :=
  .lift fun _ => level_closed.useType type

theorem addStatement (st : Statement) :
    Realizes [] (liftM (Build.addStatement st) : Step Unit) (Build.addStatement st) :=
  .lift fun _ => level_modifyHere fun _ => StageBuild.openBlocks_add

theorem claimLocal (name : String) :
    Realizes [] (liftM (Build.claimLocal name) : Step String) (Build.claimLocal name) :=
  .lift fun _ => (level_closed.claimLocal name).keeps

theorem bindValue (id : NodeId) (name : String) :
    Realizes [] (liftM (Build.bindValue id name) : Step Unit) (Build.bindValue id name) :=
  .lift fun _ => .read (.read (.bind .here fun _ _ _ _ => rfl))

theorem declareTemp (type : ValueType) (init : Option Expr) (m : Mutability) :
    Realizes [] (liftM (Build.declareTemp type init m) : Step String)
      (Build.declareTemp type init m) :=
  .lift fun _ => .declareTemp level_closed.toStraight type init m

theorem markVarying (id : NodeId) :
    Realizes []
      (liftM (modifyHere fun b => { b with varyings := appendNew b.varyings id } : Build Unit) :
        Step Unit)
      (modifyHere fun b => { b with varyings := appendNew b.varyings id }) :=
  .lift fun _ => level_modifyHere fun _ => rfl

end Realizes

/-! ### The steps below -/

namespace Generator.Realizes

variable {m : Machine.Generator} {g : ShaderGraph.Generator}

theorem value (h : m.Realizes g) (id : NodeId) (target : ValueType) :
    Machine.Realizes [] (m.value id target) (g.value id target) := by
  refine .bind (.resolve id) fun n => .located n ?_
  refine .bind (h.emit n) fun e => .bind (.typeOf n) fun type => ?_
  cases e with
  | none => exact .fail _
  | some e => exact .when (.fail _) fun _ => .ofExcept _

theorem statement (h : m.Realizes g) (id : NodeId) :
    Machine.Realizes [] (m.statement id) (g.statement id) := (h.emit id).discard

theorem values (h : m.Realizes g) (ids : List (NodeId × ValueType)) :
    Machine.Realizes [] (m.values ids) (g.values ids) :=
  .mapM (fun v : NodeId × ValueType => h.value v.1 v.2) ids

end Generator.Realizes

namespace Realizes

variable {m : Machine.Generator} {g : ShaderGraph.Generator}

/-! ### Values -/

theorem buildTemp {step : Step (Option Expr)} {step' : Build (Option Expr)}
    (h : Realizes [] step step') (id : NodeId) :
    Realizes [] (Machine.buildTemp id step) (Build.buildTemp id step') := by
  refine .bind (.boundName? id) fun bound => ?_
  cases bound with
  | some name => exact .pure _
  | none =>
    refine .bind h fun e => .bind (.typeOf id) fun type => ?_
    cases e with
    | none => exact .pure _
    | some e =>
      refine .bind (.lift fun _ => .usage id) fun uses => .ite (fun _ => .pure _) fun _ => ?_
      refine .bind (.declareTemp type (some e) .immutable) fun name => ?_
      exact .bind (.bindValue id name) fun _ => .pure _

theorem writeVarying (h : m.Realizes g) (id : NodeId) (v : VaryingEntry) :
    Realizes [] (Machine.writeVarying m id v) (Build.writeVarying g id v) := by
  refine .ite (fun _ => .pure _) fun _ => .bind (.inStage .vertex ?_) fun _ => ?_
  · exact .bind (h.value v.source v.type) fun e => .bind (.addStatement _) fun _ => .markVarying id
  · refine .lift fun env s _ t => ?_
    show ((if isWritten s id = true then s else _).stages.get t).openBlocks = _
    split <;> rfl

theorem buildVarying (h : m.Realizes g) (id source : NodeId) (name : Option String)
    (interpolation : Interpolation) (sampling : Option Sampling) :
    Realizes [] (Machine.buildVarying m id source name interpolation sampling)
      (Build.buildVarying g id source name interpolation sampling) := by
  refine .bind .stage fun t => .when (.fail _) fun _ => ?_
  refine .bind (.registerVarying id source name interpolation sampling) fun v => ?_
  refine .bind (.writeVarying h id v) fun _ => .when (.markVarying id) fun _ => .pure _

theorem buildTexture (h : m.Realizes g) (name : String) (uv : NodeId) (level : Option NodeId) :
    Realizes [] (Machine.buildTexture m name uv level) (Build.buildTexture g name uv level) := by
  refine .bind (h.value uv .vec2) fun uv => .bind ?_ fun level => ?_
  · cases level with
    | none => exact .bind .stage fun _ => .pure _
    | some level => exact .bind (h.value level .float) fun _ => .pure _
  · exact .bind (.lift fun _ => level_closed.useTexture name) fun t => .pure _

theorem buildOperator (h : m.Realizes g) (op : BinaryOp) (left right : NodeId) :
    Realizes [] (Machine.buildOperator m op left right) (Build.buildOperator g op left right) := by
  refine .bind (.typeOf left) fun l => .bind (.typeOf right) fun r => ?_
  refine .bind (.ofExcept _) fun result => ?_
  refine .bind (h.value left _) fun left => .bind (h.value right _) fun right => ?_
  exact .ite (fun _ => .pure _) fun _ => .pure _

theorem buildUnary (h : m.Realizes g) (op : UnaryOp) (operand : NodeId) :
    Realizes [] (Machine.buildUnary m op operand) (Build.buildUnary g op operand) := by
  refine .bind (.typeOf operand) fun t => .bind (.discard (.ofExcept _)) fun _ => ?_
  exact .bind (h.emit operand) fun e => .pure _

theorem buildMath (h : m.Realizes g) (id : NodeId) (method : MathMethod) (args : List NodeId) :
    Realizes [] (Machine.buildMath m id method args) (Build.buildMath g id method args) := by
  refine .bind .stage fun t => .when (.fail _) fun _ => ?_
  refine .bind (.typeOf id) fun result => .bind (.mapM .typeOf args) fun types => ?_
  exact .bind (.ofExcept _) fun targets => .bind (h.values _) fun es => .pure _

theorem buildSplit (h : m.Realizes g) (source : NodeId) (components : String) :
    Realizes [] (Machine.buildSplit m source components)
      (Build.buildSplit g source components) := by
  refine .bind (.typeOf source) fun type => .bind (.discard (.ofExcept _)) fun _ => ?_
  exact .bind (.ofExcept _) fun cs => .bind (h.emit source) fun e => .pure _

theorem buildJoin (h : m.Realizes g) (id : NodeId) (parts : List NodeId) :
    Realizes [] (Machine.buildJoin m id parts) (Build.buildJoin g id parts) := by
  refine .bind (.typeOf id) fun type => .bind (.mapM (fun part => ?_) parts) fun es => ?_
  · exact .bind (.typeOf part) fun t => h.value part _
  · exact .bind (.useType type) fun _ => .pure _

theorem buildConvert (h : m.Realizes g) (source : NodeId) (target : ValueType) :
    Realizes [] (Machine.buildConvert m source target) (Build.buildConvert g source target) := by
  refine .bind (.typeOf source) fun type => .bind (h.emit source) fun e => ?_
  cases e with
  | some e => exact .bind (.ofExcept _) fun e => .pure _
  | none => exact .when (.fail _) fun _ => .pure _

theorem buildStruct (h : m.Realizes g) (id : NodeId) (values : List NodeId) :
    Realizes [] (Machine.buildStruct m id values) (Build.buildStruct g id values) := by
  refine .bind (.typeOf id) fun type => .bind (.structMembers type.name) fun members => ?_
  refine .when (.fail _) fun _ => .bind (h.values _) fun args => ?_
  exact .bind (.useType type) fun _ => .pure _

theorem buildArray (h : m.Realizes g) (element : ValueType) (values : List NodeId) :
    Realizes [] (Machine.buildArray m element values) (Build.buildArray g element values) := by
  refine .bind (.ofExcept _) fun type => .bind (h.values _) fun args => ?_
  exact .bind (.useType type) fun _ => .pure _

theorem buildMember (h : m.Realizes g) (base : NodeId) (name : String) :
    Realizes [] (Machine.buildMember m base name) (Build.buildMember g base name) := by
  refine .bind (.typeOf base) fun type => ?_
  refine .bind (.discard (.lift fun _ => .memberType type name)) fun _ => ?_
  exact .bind (h.emit base) fun e => .pure _

theorem buildElement (h : m.Realizes g) (base : Option Expr) (source i : NodeId) :
    Realizes [] (Machine.buildElement m base source i) (Build.buildElement g base source i) := by
  refine .bind (.typeOf source) fun type => .bind (.typeOf i) fun index => ?_
  refine .bind (.discard (.lift fun _ => .elementType type index)) fun _ => ?_
  exact .bind (.lift fun _ => .checkIndex type i) fun _ => .bind (h.value i index) fun i => .pure _

theorem buildIndex (h : m.Realizes g) (base i : NodeId) :
    Realizes [] (Machine.buildIndex m base i) (Build.buildIndex g base i) :=
  .bind (h.emit base) fun e => .buildElement h e base i

/-! ### Places and variables -/

theorem placeBase (h : m.Realizes g) (base : NodeId) :
    Realizes [] (Machine.placeBase m base) (Build.placeBase g base) := by
  refine .bind (.resolve base) fun id => .bind (.node id) fun n => ?_
  cases n with
  | storageBuffer name element count access =>
    refine .bind (.tables fun _ => registerStorage_tables name element count access) fun b => ?_
    refine .bind (.tables fun _ => useStorage_tables (absurd trivial) name b) fun e => ?_
    exact .when (.fail _) fun _ => .pure e
  | _ => exact .bind (h.place base) fun place => .pure _

/-- A step that has to give an expression. -/
theorem required {step : Step (Option Expr)} {step' : Build (Option Expr)}
    (h : Realizes [] step step') (type : ValueType) :
    Realizes []
      (do match ← step with
          | some e => return e
          | none => Build.fail (TypeError.noValue type))
      (do match ← step' with
          | some e => return e
          | none => Build.fail (TypeError.noValue type)) := by
  refine .bind h fun e => ?_
  cases e with
  | some e => exact .pure e
  | none => exact .fail _

theorem placeOf (h : m.Realizes g) (id : NodeId) (type : ValueType) (n : Node) :
    Realizes [] (Machine.placeOf m id type n) (Build.placeOf g id type n) := by
  cases n with
  | var value name readOnly =>
    cases readOnly with
    | true => exact .fail _
    | false => exact .required (h.emit id) type
  | property => exact .required (h.emit id) type
  | member base name => exact .bind (h.place base) fun place => .pure _
  | index base i =>
    exact .bind (.placeBase h base) fun place => .required (.buildElement h _ base i) type
  | split base components =>
    refine .bind .dialect fun d => .ite (fun _ => .bind .dialect fun d => ?_) fun _ => ?_
    · refine .bind (.fail _) fun _ => ?_
      exact .bind (h.place base) fun place => .bind (.ofExcept _) fun cs => .pure _
    · exact .bind (h.place base) fun place => .bind (.ofExcept _) fun cs => .pure _
  | _ => exact .fail _

theorem buildPlace (h : m.Realizes g) (id : NodeId) :
    Realizes [] (Machine.buildPlace m id) (Build.buildPlace g id) := by
  refine .bind (.resolve id) fun id => .located id ?_
  refine .bind (.node id) fun n => .bind (.typeOf id) fun type => ?_
  exact .bind (.placeOf h id type n) fun place => .pure _

theorem prepareVariable (h : m.Realizes g) (id value : NodeId) (name : Option String) :
    Realizes [] (Machine.prepareVariable m id value name)
      (Build.prepareVariable g id value name) := by
  refine .bind (.typeOf id) fun type => .bind (h.value value type) fun init => ?_
  refine .bind (.useType type) fun _ => ?_
  cases name with
  | some name => exact .bind (.claimLocal name) fun name => .pure _
  | none => exact .bind (.lift fun _ => level_closed.claimTemp.keeps) fun name => .pure _

theorem declareVariable (id value : NodeId) (readOnly : Bool) (name : String) (type : ValueType)
    (init : Expr) :
    Realizes [] (liftM (Build.declareVariable id value readOnly name type init) : Step Unit)
      (Build.declareVariable id value readOnly name type init) := by
  refine .lift fun _ => .bind (.mutability value readOnly) fun m => ?_
  refine .bind (.recordKey id) fun key => ?_
  refine .bind (level_modifyHere fun _ => StageBuild.openBlocks_add) fun _ => ?_
  exact .read (.bind .here fun _ _ _ _ => rfl)

theorem buildVariable (h : m.Realizes g) (id value : NodeId) (name : Option String)
    (readOnly : Bool) :
    Realizes [] (Machine.buildVariable m id value name readOnly)
      (Build.buildVariable g id value name readOnly) := by
  refine .bind (.boundName? id) fun bound => ?_
  cases bound with
  | some name => exact .pure _
  | none =>
    refine .bind (.prepareVariable h id value name) fun v => ?_
    exact .bind (.declareVariable id value readOnly v.2.2 v.1 v.2.1) fun _ => .pure _

theorem buildUpdate (h : m.Realizes g) (place : Expr) (type : ValueType) (op : BinaryOp)
    (value : NodeId) :
    Realizes [] (Machine.buildUpdate m place type op value)
      (Build.buildUpdate g place type op value) := by
  refine .bind (.typeOf value) fun t => .bind (.ofExcept _) fun result => ?_
  refine .when (.fail _) fun _ => ?_
  exact .bind (h.value value _) fun e => .ite (fun _ => .pure _) fun _ => .pure _

theorem buildAssign (h : m.Realizes g) (target value : NodeId) (op : Option BinaryOp) :
    Realizes [] (Machine.buildAssign m target value op) (Build.buildAssign g target value op) := by
  refine .bind (h.place target) fun place => ?_
  cases op with
  | none => exact .bind (.bind (h.value value _) fun e => .pure _) fun st => .addStatement st
  | some op => exact .bind (.buildUpdate h _ _ op value) fun st => .addStatement st

/-! ### Control flow and calls -/

theorem buildBranch (h : m.Realizes g) (result : String) (type : ValueType) (id : NodeId) :
    Realizes [] (Machine.buildBranch m result type id) (Build.buildBranch g result type id) :=
  .inBlock (.bind (h.value id type) fun _ => .addStatement _)

theorem buildChoice (h : m.Realizes g) (id : NodeId) (type : ValueType) (condition : Expr)
    (thenNode elseNode : NodeId) :
    Realizes [] (Machine.buildChoice m id type condition thenNode elseNode)
      (Build.buildChoice g id type condition thenNode elseNode) := by
  refine .bind (.lift fun _ => .arePure _) fun pure => .ite (fun _ => .buildTemp ?_ id) fun _ => ?_
  · exact .bind (h.value thenNode type) fun t => .bind (h.value elseNode type) fun e => .pure _
  · refine .bind (.declareTemp type none .mutable) fun result => ?_
    refine .bind (.buildBranch h result type thenNode) fun t => ?_
    refine .bind (.buildBranch h result type elseNode) fun e => ?_
    exact .bind (.addStatement _) fun _ => .bind (.bindValue id result) fun _ => .pure _

theorem buildConditional (h : m.Realizes g) (id condition thenNode : NodeId)
    (elseNode : Option NodeId) :
    Realizes [] (Machine.buildConditional m id condition thenNode elseNode)
      (Build.buildConditional g id condition thenNode elseNode) := by
  refine .bind (.boundName? id) fun bound => ?_
  cases bound with
  | some name => exact .pure _
  | none =>
    refine .bind (.typeOf id) fun type => .bind (h.value condition .bool) fun c => ?_
    cases elseNode with
    | none =>
      refine .bind (.inBlock (h.statement thenNode)) fun t => ?_
      exact .bind (.addStatement _) fun _ => .pure _
    | some elseNode =>
      refine .ite (fun _ => ?_) fun _ => .buildChoice h id type c thenNode elseNode
      refine .bind (.inBlock (h.statement thenNode)) fun t => ?_
      refine .bind (.inBlock (h.statement elseNode)) fun e => ?_
      exact .bind (.addStatement _) fun _ => .pure _

theorem buildBound (h : m.Realizes g) (type : ValueType) (kind : ScalarKind)
    (b : LoopBound NodeId) :
    Realizes [] (Machine.buildBound m type kind b) (Build.buildBound g type kind b) := by
  cases b with
  | value v => exact .pure _
  | node id => exact h.value id type

/-- Each level pushes its loop and opens its block around the levels further in. -/
theorem buildLevels (h : m.Realizes g) (id : NodeId) (body : Option NodeId) (level : Nat)
    (params : List (LoopParam NodeId)) :
    Realizes [] (Machine.buildLevels m id body level params)
      (Build.buildLevels g id body level params) := by
  induction params generalizing level with
  | nil =>
    cases body with
    | none => exact .pure _
    | some body => exact h.statement body
  | cons p rest ih =>
    rw [Machine.buildLevels, Build.buildLevels]
    refine .bind (.ofExcept _) fun checked => .bind .read fun env => ?_
    refine .bind (.claimLocal _) fun counter => ?_
    refine .bind (.useType p.type) fun _ => ?_
    refine .bind (.buildBound h p.type _ p.start) fun start => ?_
    refine .bind (.buildBound h p.type _ p.stop) fun stop => ?_
    refine .bind (.inLoop _ (.inBlock (ih (level + 1)))) fun inner => ?_
    refine .bind (.lift fun _ => level_closed.releaseLocal counter) fun _ => ?_
    exact .addStatement _

theorem buildLoop (h : m.Realizes g) (id : NodeId) (params : List (LoopParam NodeId))
    (body : Option NodeId) :
    Realizes [] (Machine.buildLoop m id params body) (Build.buildLoop g id params body) :=
  .when (.fail _) fun _ => .buildLevels h id body 0 params

theorem buildStack (h : m.Realizes g) (nodes : List NodeId) (output : Option NodeId) :
    Realizes [] (Machine.buildStack m nodes output) (Build.buildStack g nodes output) := by
  refine .bind (.forM h.statement nodes) fun _ => ?_
  cases output with
  | some output => exact h.emit output
  | none => exact .pure _

theorem buildArgument (h : m.Realizes g) (function : String) (arg : NodeId) (p : Native.Parameter) :
    Realizes [] (Machine.buildArgument m function arg p)
      (Build.buildArgument g function arg p) := by
  refine .ite (fun _ => ?_) fun _ => h.value arg _
  exact .bind (h.place arg) fun place => .when (.fail _) fun _ => .pure _

theorem buildCall (h : m.Realizes g) (id : NodeId) (function : FunctionId) (args : List NodeId) :
    Realizes [] (Machine.buildCall m id function args) (Build.buildCall g id function args) := by
  refine .bind (.boundName? id) fun bound => ?_
  cases bound with
  | some name => exact .pure _
  | none =>
    refine .bind (.registerFunction function) fun f => .when (.fail _) fun _ => ?_
    refine .bind (.useFunction function) fun _ => ?_
    have each := fun a : NodeId × Native.Parameter => Realizes.buildArgument h f.name a.1 a.2
    refine .bind (.mapM each _) fun values => ?_
    refine .ite (fun _ => .bind (.addStatement _) fun _ => .pure _) fun _ => ?_
    refine .bind (.declareTemp f.result _ .immutable) fun name => ?_
    exact .bind (.bindValue id name) fun _ => .pure _

/-! ### All nodes -/

theorem withoutValue {step : Step Unit} {step' : Build Unit} (h : Realizes [] step step') :
    Realizes [] (Machine.withoutValue step) (Build.withoutValue step') := .bind h fun _ => .pure _

theorem generateNode (h : m.Realizes g) (id : NodeId) (n : Node) :
    Realizes [] (Machine.generateNode m id n) (Build.generateNode g id n) := by
  cases n with
  | const type values => exact .map _ (.lift fun _ => .buildConstant level_closed.toPlain type values)
  | uniform name type group update value =>
    refine .bind (.tables fun _ => registerUniform_tables _ _ _ _ _ _) fun u => ?_
    exact .map _ (.tables fun _ => useUniform_tables u.1 u.2)
  | meshAttribute name type => exact .map _ (.lift fun _ => .buildAttribute level_closed.toPlain name type)
  | varying source name interpolation sampling =>
    exact .map _ (.buildVarying h id source name interpolation sampling)
  | property name type => exact .map _ (.lift fun _ => level_closed.property name type)
  | builtin b => exact .map _ (.lift fun _ => level_closed.useBuiltin b)
  | texture name uv level => exact .buildTemp (.map _ (.buildTexture h name uv level)) id
  | storageBuffer name element count access =>
    exact .map _ (.lift fun _ => .buildStorage level_closed.toPlain name element count access)
  | var value name readOnly => exact .map _ (.buildVariable h id value name readOnly)
  | assign target value op => exact .withoutValue (.buildAssign h target value op)
  | operator op left right => exact .buildTemp (.map _ (.buildOperator h op left right)) id
  | unary op operand => exact .buildTemp (.buildUnary h op operand) id
  | math method args => exact .buildTemp (.map _ (.buildMath h id method args)) id
  | split source components => exact .buildSplit h source components
  | join parts type => exact .buildTemp (.map _ (.buildJoin h id parts)) id
  | convert source target => exact .buildTemp (.buildConvert h source target) id
  | conditional condition thenNode elseNode =>
    exact .buildConditional h id condition thenNode elseNode
  | loop params body => exact .withoutValue (.buildLoop h id params body)
  | loopIndex loop param => exact .map _ (.lift fun _ => .buildCounter loop param)
  | jump j => exact .withoutValue (.lift fun _ => .buildJump level_closed.toStraight j)
  | stack nodes output => exact .buildStack h nodes output
  | structType name members => exact .fail _
  | struct layout values => exact .buildTemp (.map _ (.buildStruct h id values)) id
  | array element values => exact .buildTemp (.map _ (.buildArray h element values)) id
  | member base name => exact .buildMember h base name
  | index base i => exact .buildIndex h base i
  | context inner values => exact .inContext id values (h.emit inner)
  | contextValue key fallback => exact .withContextValue key fallback h.emit
  | cache inner shares =>
    exact .bind (.lift fun _ _ _ _ => rfl) fun scope => .inScope scope (h.emit inner)
  | call function args => exact .buildCall h id function args
  | remap | custom => exact .fail _

theorem emitNode (h : m.Realizes g) (id : NodeId) :
    Realizes [] (Machine.emitNode m id) (Build.emitNode g id) := by
  refine .bind (.resolve id) fun id => .bind .get fun before => ?_
  refine .bind (.located id (.bind (.node id) fun n => .generateNode h id n)) fun code => ?_
  exact .bind (.lift fun _ => .read fun _ _ _ => rfl) fun _ => .pure code

theorem generator (fuel : Nat) : (Machine.generator fuel).Realizes (Build.generator fuel) := by
  -- a node that is one level deeper is generated with one unit of fuel less
  induction fuel with
  | zero => exact ⟨fun _ => .lift fun _ _ _ => trivial, fun _ => .lift fun _ _ _ => trivial⟩
  | succ fuel ih => exact ⟨fun id => .emitNode ih id, fun id => .buildPlace ih id⟩

end Realizes

/-! ### Calls -/

/-- A call to a builder, and what it gives. -/
inductive Call : Type → Type 1
  /-- The walk over a node and all that it refers to. -/
  | analyze (id : NodeId) : Call Unit
  | typeOf (id : NodeId) : Call ValueType
  /-- The code of a node, which may be there for its statements only. -/
  | emit (id : NodeId) : Call (Option Expr)
  /-- The code of a node as a value of a type. -/
  | value (id : NodeId) (target : ValueType) : Call Expr
  /-- The code of a node that something is assigned to. -/
  | place (id : NodeId) : Call (Expr × ValueType)

/-- A call on a machine; `fuel` bounds the depth of the generation. -/
def Call.step (fuel : Nat) : Call α → Step α
  | .analyze id => Machine.analyze id
  | .typeOf id => Machine.typeOf id
  | .emit id => (Machine.generator fuel).emit id
  | .value id target => (Machine.generator fuel).value id target
  | .place id => (Machine.generator fuel).place id

/-- A call in a build; `fuel` bounds the depth of the generation. -/
def Call.build (fuel : Nat) : Call α → Build α
  | .analyze id => Build.analyze id
  | .typeOf id => Build.typeOf id
  | .emit id => (Build.generator fuel).emit id
  | .value id target => (Build.generator fuel).value id target
  | .place id => (Build.generator fuel).place id

theorem Realizes.call (fuel : Nat) (c : Call α) : Realizes [] (c.step fuel) (c.build fuel) := by
  have nodes := Realizes.generator fuel
  cases c with
  | analyze id => exact .analyze id
  | typeOf id => exact .typeOf id
  | emit id => exact nodes.emit id
  | value id target => exact nodes.value id target
  | place id => exact nodes.place id

/-- Whatever the registers hold and whichever blocks are open when a builder is called, they are the
same after the call, whether it gives a value or fails. And the machine that writes its registers
does what the build that runs does. -/
theorem registers_restored (fuel : Nat) (c : Call α) :
    (∀ x : Machine, x.Restores (c.step fuel x).2) ∧
      ∀ env s, Follows ⟨env, [], s⟩ (c.build fuel env s) (c.step fuel ⟨env, [], s⟩) :=
  ⟨fun x => (Realizes.call fuel c x).restores,
    fun env s => (Realizes.call fuel c ⟨env, [], s⟩).follows rfl⟩

end ShaderGraph.Machine
