import ShaderGraph.Proofs.Machine

/-!
# Types, functions and analysis on a machine
-/

namespace ShaderGraph.Machine

open Build

/-! ### Native functions -/

/-- Reads a native function that is not known yet, after those that it includes. -/
def registerFunctionIn : Nat → FunctionId → Step FunctionEntry
  | 0, _ => exhaust
  | fuel + 1, id => do
    match (← get).functions.get? id with
    | some entry => return entry
    | none =>
      let entry ← whileRegistering id do
        match (← read).plan.graph.function? id with
        | none => fail (GraphError.missingFunction id)
        | some native =>
          let includes ← native.includes.mapM (registerFunctionIn fuel)
          let f ← ofExcept (Native.Declaration.read native.dialect native.source)
          functionEntry native f (includes.map FunctionEntry.source)
      modify fun s : BuildState => { s with functions := s.functions.put id entry }
      return entry

/-- The entry of a native function. -/
def registerFunction (id : FunctionId) : Step FunctionEntry := do
  registerFunctionIn (← includeDepth) id

/-- Declares a function after those it includes. -/
def useFunctionIn : Nat → FunctionId → Step Unit
  | 0, _ => exhaust
  | fuel + 1, id => do
    let entry ← registerFunction id
    if (← here).functions.contains id then return
    entry.includes.forM fun i => useFunctionIn fuel i
    entry.inputs.forM fun p => markType p.valueType
    markType entry.result
    modifyHere fun b => { b with functions := appendNew b.functions id }

/-- Declares a function after those it includes. -/
def useFunction (id : FunctionId) : Step Unit := do useFunctionIn (← includeDepth) id

/-! ### Types -/

/-- The type of a conditional. -/
def conditionalType (typeOf : NodeId → Step ValueType) (condition thenNode : NodeId)
    (elseNode : Option NodeId) : Step ValueType := do
  let c ← typeOf condition
  if c ≠ .bool then fail (TypeError.condition c)
  match elseNode with
  | none => return .void
  | some elseNode =>
    let t ← typeOf thenNode
    let e ← typeOf elseNode
    if t ≠ e then fail (TypeError.branches t e)
    return t

/-- The type of a node; `typeOf` gives the types of the nodes it refers to. -/
def typeOfNode (typeOf : NodeId → Step ValueType) (id : NodeId) : Node → Step ValueType
  | .const type values => ofExcept (constantType type values)
  | .uniform _ type .. | .property _ type => return type
  | .meshAttribute name type => attributeType name type
  | .varying source .. => typeOf source
  | .builtin b => return b.type
  | .texture .. => return .vec4
  | .storageBuffer _ element count _ => return .array element (count.getD 0)
  | .var value .. => do variableType (← typeOf value)
  | .assign .. | .loop .. | .jump _ => return .void
  | .operator op left right => do
    let l ← typeOf left
    let r ← typeOf right
    ofExcept (op.resultType l r)
  | .unary op operand => do ofExcept (op.resultType (← typeOf operand))
  | .math method args => do ofExcept (method.resultType (← args.mapM typeOf))
  | .split source components => do ofExcept (Swizzle.resultType (← typeOf source) components)
  | .join parts explicit => do ofExcept (joinType (← parts.mapM typeOf) explicit)
  | .convert _ target => return target
  | .conditional condition thenNode elseNode => conditionalType typeOf condition thenNode elseNode
  | .loopIndex loop param => counterType loop param
  | .stack _ output =>
    match output with
    | some output => typeOf output
    | none => return .void
  | .structType name _ => return .struct name
  | .struct layout _ => structType layout
  | .array element values => ofExcept (arrayType element values.length)
  | .member base name => do memberType (← typeOf base) name
  | .index base i => do
    let b ← typeOf base
    elementType b (← typeOf i)
  | .context inner values => inContext id values (typeOf inner)
  | .contextValue key fallback => withContextValue key fallback typeOf
  | .cache inner _ => typeOf inner
  | .call f _ => return (← registerFunction f).result
  | .remap .. | .custom _ => fail GraphError.unexpandedType

/-- The type of a node in the current context; `fuel` bounds the depth of the recursion. -/
def typeOfIn : Nat → NodeId → Step ValueType
  | 0, _ => exhaust
  | fuel + 1, id => do
    let id ← resolve id
    let key := (id, Frame.current (← read).frames)
    match (← get).types.get? key with
    | some t => return t
    | none =>
      let t ← whileTyping key do typeOfNode (typeOfIn fuel) id (← node id)
      modify fun s : BuildState => { s with types := s.types.put key t }
      return t

/-- The type of a node in the current context. -/
def typeOf (id : NodeId) : Step ValueType := do typeOfIn (← depthBound) id

/-! ### Varyings -/

/-- Enters a varying; the vertex program must be there to write it. -/
def enterVarying (id source : NodeId) (name : Option String) (interpolation : Interpolation)
    (sampling : Option Sampling) : Step VaryingEntry := do
  if (← stage) = .compute then fail ScopeError.varyingInCompute
  if !(← read).active.contains .vertex then fail ScopeError.varyingWithoutVertex
  let type ← typeOf source
  if !type.isInterface then fail (TypeError.varyingForm type)
  let emitted ← claimVarying name
  let v : VaryingEntry :=
    ⟨emitted, type, source, interpolationFor type interpolation, sampling, none⟩
  modify fun s : BuildState => { s with varyings := s.varyings.put id v }
  return v

/-- The entry of a varying. -/
def registerVarying (id source : NodeId) (name : Option String) (interpolation : Interpolation)
    (sampling : Option Sampling) : Step VaryingEntry := do
  match (← get).varyings.get? id with
  | some v => return v
  | none => enterVarying id source name interpolation sampling

/-! ### Analysis -/

/-- Walks on from a node to those it refers to. -/
def analyzeNode (analyze : NodeId → Step Unit) (id : NodeId) (n : Node) : Step Unit := do
  match n with
  | .cache inner shares =>
    let scope ← cacheScope id shares
    inScope scope (analyze inner)
  | .context inner values => inContext id values (analyze inner)
  | .contextValue key fallback => withContextValue key fallback analyze
  | .varying source name interpolation sampling =>
    discard <| registerVarying id source name interpolation sampling
    inStage .vertex (analyze source)
  | .uniform name type group update value =>
    discard <| registerUniform id name type group update value
  | .meshAttribute name type => discard <| registerAttribute name type
  | .storageBuffer name element count access =>
    discard <| registerStorage name element count access
  | .texture name .. =>
    discard <| registerTexture name
    n.children.forM analyze
  | .call f args =>
    discard <| registerFunction f
    args.forM analyze
  | _ => n.children.forM analyze

/-- Walks over a node and all that it refers to; `fuel` bounds the length of the path. -/
def analyzeIn : Nat → NodeId → Step Unit
  | 0, _ => exhaust
  | fuel + 1, id => do
    let id ← resolve id
    if (← read).path.contains id then located id (fail (GraphError.cycle id))
    if (← countReference id) = 1 then
      below id do analyzeNode (analyzeIn fuel) id (← node id)

/-- Walks over a node and all that it refers to. -/
def analyze (id : NodeId) : Step Unit := do
  analyzeIn ((← read).plan.graph.size + 2) id

end ShaderGraph.Machine

namespace ShaderGraph.Build

variable {α : Type} {env : Env}

/-! ### Steps that leave the open blocks alone -/

theorem level_unmoved : Law.level.Unmoved where
  ends _ := trivial
  rel {_ s s'} _ same t := by
    have inner : (s'.stages.get t).inner = (s.stages.get t).inner :=
      congrFun (congrArg Still.inner same) t
    have outer : (s'.stages.get t).outer = (s.stages.get t).outer :=
      congrFun (congrArg Still.outer same) t
    rw [StageBuild.openBlocks, StageBuild.openBlocks, inner, outer]

theorem level_ofTyping {step : Build α} (h : Law.typing.Keeps env step) :
    Law.level.Keeps env step :=
  level_unmoved.keeps h

theorem level_ofTables {step : Build α} (h : (Law.tables True).Keeps env step) :
    Law.level.Keeps env step := level_ofTyping (typing_ofTables h)

theorem level_modifyHere {f : StageBuild → StageBuild} (hf : ∀ b, (f b).openBlocks = b.openBlocks) :
    Law.level.Keeps env (modifyHere f) := by
  intro s _ t
  exact s.stages.map_get_modify env.stage t hf

theorem level_closed : Law.level.Closed := by
  refine closed_ofStill level_unmoved ?_ ?_ ?_
  · intro env id n name _ _
    exact .read (.read (.bind .here fun b _ _ _ => rfl))
  · intro env s s' st _ _ hr t
    have added : Law.level.Keeps env (addStatement st) :=
      level_modifyHere fun _ => StageBuild.openBlocks_add
    exact (added s' trivial t).trans (hr t)
  · intro env step h s _
    unfold inBlock
    rw [meets_bind, meets_modifyHere, meets_bind]
    refine (h _ trivial).imp fun _ s' kept => ?_
    rw [meets_bind, meets_here, meets_bind, meets_modifyHere, meets_pure]
    exact PerStage.openBlocks_closed kept

/-- Reads a native function after those it includes. -/
def readFunctionIn (fuel : Nat) (path : List FunctionId) (id : FunctionId) :
    Build FunctionEntry := do
  match (← read).plan.graph.function? id with
  | none => fail (GraphError.missingFunction id)
  | some native =>
    let includes ← native.includes.mapM (registerFunctionIn fuel (id :: path))
    let f ← ofExcept (Native.Declaration.read native.dialect native.source)
    functionEntry native f (includes.map FunctionEntry.source)

/-- A function that is not known yet is read and entered. -/
theorem registerFunctionIn_succ (fuel : Nat) (path : List FunctionId) (id : FunctionId) :
    registerFunctionIn (fuel + 1) path id = (do
      match (← get).functions.get? id with
      | some entry => return entry
      | none =>
        let entry ← (if path.contains id then fail GraphError.includeCycle
          else readFunctionIn fuel path id : Build FunctionEntry)
        modify fun s => { s with functions := s.functions.put id entry }
        return entry) := by
  rw [registerFunctionIn]
  refine bind_congr fun s => ?_
  cases s.functions.get? id with
  | some entry => rfl
  | none =>
    by_cases hc : path.contains id
    · simp only [if_pos hc]
      rfl
    · simp only [if_neg hc]
      unfold readFunctionIn
      rw [bind_assoc]
      refine bind_congr fun env => ?_
      cases env.plan.graph.function? id with
      | none => rfl
      | some native => simp only [bind_assoc]

end ShaderGraph.Build

namespace ShaderGraph.Machine.Realizes

open Build

variable {α β : Type} {path : List FunctionId}

/-- A step that changes the tables. -/
theorem tables {step : Build α} (h : ∀ env, (Law.tables True).Keeps env step) :
    Realizes path (liftM step : Step α) step := .lift fun env => level_ofTables (h env)

/-! ### Native functions -/

theorem registerFunctionIn (fuel : Nat) (id : FunctionId) :
    Realizes path (Machine.registerFunctionIn fuel id) (Build.registerFunctionIn fuel path id) := by
  induction fuel generalizing path id with
  | zero => exact .lift fun _ _ _ => trivial
  | succ fuel ih =>
    rw [Machine.registerFunctionIn, registerFunctionIn_succ]
    refine .bind .get fun s => ?_
    cases s.functions.get? id with
    | some entry => exact .pure entry
    | none =>
      refine .bind (.whileRegistering id ?_) fun entry => ?_
      · refine .bind .read fun env => ?_
        cases env.plan.graph.function? id with
        | none => exact .fail _
        | some native =>
          refine .bind (.mapM ih _) fun includes => .bind (.ofExcept _) fun f => ?_
          exact .tables fun _ => functionEntry_tables native f _
      · exact .bind (.lift fun _ _ _ _ => rfl) fun _ => .pure entry

theorem registerFunction (id : FunctionId) :
    Realizes [] (Machine.registerFunction id) (Build.registerFunction id) :=
  .bind (.lift fun _ => .read (.pure _)) fun fuel => .registerFunctionIn fuel id

theorem markType (type : ValueType) :
    Realizes path (liftM (Build.markType type) : Step Unit) (Build.markType type) :=
  .tables fun _ => markType_tables (absurd trivial)

theorem useFunctionIn (fuel : Nat) (id : FunctionId) :
    Realizes [] (Machine.useFunctionIn fuel id) (Build.useFunctionIn fuel id) := by
  induction fuel generalizing id with
  | zero => exact .lift fun _ _ _ => trivial
  | succ fuel ih =>
    rw [Machine.useFunctionIn, Build.useFunctionIn]
    refine .bind (.registerFunction id) fun entry => .bind (.lift fun _ => .here) fun b => ?_
    refine .ite (fun _ => .pure _) fun _ => ?_
    rw [forIn_eq_forM, forIn_eq_forM]
    have mark := fun p : Native.Parameter => @markType [] p.valueType
    refine .bind (.forM ih _) fun _ => .bind (.forM mark _) fun _ => ?_
    refine .bind (.markType entry.result) fun _ => ?_
    exact .tables fun _ => tables_modifyHere (fun _ => rfl) fun _ => rfl

theorem useFunction (id : FunctionId) :
    Realizes [] (Machine.useFunction id) (Build.useFunction id) :=
  .bind (.lift fun _ => .read (.pure _)) fun fuel => .useFunctionIn fuel id

/-! ### Types -/

theorem conditionalType {m : NodeId → Step ValueType} {step : NodeId → Build ValueType}
    (h : ∀ id, Realizes path (m id) (step id)) (condition thenNode : NodeId)
    (elseNode : Option NodeId) :
    Realizes path (Machine.conditionalType m condition thenNode elseNode)
      (Build.conditionalType step condition thenNode elseNode) := by
  refine .bind (h condition) fun c => .when (.fail _) fun _ => ?_
  cases elseNode with
  | none => exact .pure _
  | some elseNode =>
    exact .bind (h thenNode) fun t => .bind (h elseNode) fun e => .when (.fail _) fun _ => .pure t

theorem typeOfNode {m : NodeId → Step ValueType} {step : NodeId → Build ValueType}
    (h : ∀ id, Realizes [] (m id) (step id)) (id : NodeId) (n : Node) :
    Realizes [] (Machine.typeOfNode m id n) (Build.typeOfNode step id n) := by
  cases n with
  | const => exact .ofExcept _
  | meshAttribute name type => exact .lift fun _ => .attributeType name type
  | varying source => exact h source
  | var value =>
    exact .bind (h value) fun t => .lift fun _ => .when (fun _ => .fail rfl) fun _ => .pure _
  | operator op left right => exact .bind (h left) fun l => .bind (h right) fun r => .ofExcept _
  | unary op operand => exact .bind (h operand) fun t => .ofExcept _
  | math method args => exact .bind (.mapM h args) fun ts => .ofExcept _
  | split source components => exact .bind (h source) fun t => .ofExcept _
  | join parts explicit => exact .bind (.mapM h parts) fun ts => .ofExcept _
  | conditional condition thenNode elseNode => exact .conditionalType h condition thenNode elseNode
  | loopIndex loop param => exact .lift fun _ => .counterType loop param
  | stack nodes output =>
    cases output with
    | none => exact .pure _
    | some output => exact h output
  | struct layout => exact .lift fun _ => .structType layout
  | array => exact .ofExcept _
  | member base name => exact .bind (h base) fun t => .lift fun _ => .memberType t name
  | index base i =>
    exact .bind (h base) fun b => .bind (h i) fun t => .lift fun _ => .elementType b t
  | context inner values => exact .inContext id values (h inner)
  | contextValue key fallback => exact .withContextValue key fallback h
  | cache inner => exact h inner
  | call f => exact .bind (.registerFunction f) fun entry => .pure _
  | remap | custom => exact .fail _
  | _ => exact .pure _

theorem typeOfIn (fuel : Nat) (id : NodeId) :
    Realizes [] (Machine.typeOfIn fuel id) (Build.typeOfIn fuel id) := by
  induction fuel generalizing id with
  | zero => exact .lift fun _ _ _ => trivial
  | succ fuel ih =>
    rw [Machine.typeOfIn, Build.typeOfIn]
    refine .bind (.resolve id) fun m => .bind .read fun env => .bind .get fun s => ?_
    cases s.types.get? (m, Frame.current env.frames) with
    | some t => exact .pure t
    | none =>
      refine .bind (.whileTyping _ (.bind (.node m) fun n => .typeOfNode ih m n)) fun t => ?_
      exact .bind (.lift fun _ _ _ _ => rfl) fun _ => .pure t

theorem typeOf (id : NodeId) : Realizes [] (Machine.typeOf id) (Build.typeOf id) :=
  .bind (.lift fun _ => .read (.pure _)) fun fuel => .typeOfIn fuel id

/-! ### Varyings -/

theorem enterVarying (id source : NodeId) (name : Option String) (interpolation : Interpolation)
    (sampling : Option Sampling) :
    Realizes [] (Machine.enterVarying id source name interpolation sampling)
      (Build.enterVarying id source name interpolation sampling) := by
  refine .bind (.lift fun _ => .stage) fun t => .when (.fail _) fun _ => .bind .read fun env => ?_
  refine .when (.fail _) fun _ => .bind (.typeOf source) fun type => .when (.fail _) fun _ => ?_
  refine .bind (.tables fun _ => claimVarying_tables name) fun emitted => ?_
  exact .bind (.lift fun _ _ _ _ => rfl) fun _ => .pure _

theorem registerVarying (id source : NodeId) (name : Option String) (interpolation : Interpolation)
    (sampling : Option Sampling) :
    Realizes [] (Machine.registerVarying id source name interpolation sampling)
      (Build.registerVarying id source name interpolation sampling) := by
  refine .bind .get fun s => ?_
  cases s.varyings.get? id with
  | some v => exact .pure v
  | none => exact .enterVarying id source name interpolation sampling

/-! ### Analysis -/

theorem analyzeNode {m : NodeId → Step Unit} {step : NodeId → Build Unit}
    (h : ∀ id, Realizes [] (m id) (step id)) (id : NodeId) (n : Node) :
    Realizes [] (Machine.analyzeNode m id n) (Build.analyzeNode step id n) := by
  cases n with
  | cache inner shares =>
    exact .bind (.lift fun _ _ _ _ => rfl) fun scope => .inScope scope (h inner)
  | context inner values => exact .inContext id values (h inner)
  | contextValue key fallback => exact .withContextValue key fallback h
  | varying source name interpolation sampling =>
    refine .bind (.discard (.registerVarying id source name interpolation sampling)) fun _ => ?_
    exact .inStage .vertex (h source)
  | uniform name type group update value =>
    exact .discard (.tables fun _ => registerUniform_tables _ _ _ _ _ _)
  | meshAttribute name type => exact .discard (.tables fun _ => registerAttribute_tables _ _)
  | storageBuffer name element count access =>
    exact .discard (.tables fun _ => registerStorage_tables _ _ _ _)
  | texture name =>
    exact .bind (.discard (.tables fun _ => registerTexture_tables name)) fun _ => .forM h _
  | call f args => exact .bind (.discard (.registerFunction f)) fun _ => .forM h args
  | _ => exact .forM h _

theorem analyzeIn (fuel : Nat) (id : NodeId) :
    Realizes [] (Machine.analyzeIn fuel id) (Build.analyzeIn fuel id) := by
  induction fuel generalizing id with
  | zero => exact .lift fun _ _ _ => trivial
  | succ fuel ih =>
    rw [Machine.analyzeIn, Build.analyzeIn]
    refine .bind (.resolve id) fun m => .bind .read fun env => ?_
    refine .when (.located m (.fail _)) fun _ => .bind (.lift fun _ _ _ _ => rfl) fun n => ?_
    refine .ite (fun _ => .below m (.bind (.node m) fun n => .analyzeNode ih m n)) fun _ => .pure _

theorem analyze (id : NodeId) : Realizes [] (Machine.analyze id) (Build.analyze id) :=
  .bind .read fun _ => .analyzeIn _ id

end ShaderGraph.Machine.Realizes
