import ShaderGraph.Build.Generate
import ShaderGraph.Proofs.Evaluation
import ShaderGraph.Proofs.Tables

/-!
# The walk over the nodes

A law is kept by the whole generation when it is kept by what happens at single nodes
(`Law.Closed`). The theorems here take the steps of the nodes below a node for granted
(`Law.Serves`) and conclude that the step of the node keeps to the law. Nodes that change what the
nodes below them see, variables and varyings are left to each law.

`Build.meets_typeOfIn` and `Build.meets_emitNode` say what finding a type and generating code come to
at the node that is built in the place of another.
-/

namespace ShaderGraph

/-- The statements of the blocks of a statement. -/
def Statement.blocks : Statement → List Statement
  | branch _ thenBody elseBody => thenBody ++ elseBody.getD []
  | loop _ _ _ _ _ _ body => body
  | _ => []

/-- Where a variable node keeps the name that a statement declares. -/
def Statement.owner? : Statement → Option CacheKey
  | declare _ _ _ _ owner => owner
  | _ => none

/-- The name that a statement itself declares. -/
def Statement.own? : Statement → Option String
  | declare name .. => some name
  | loop counter .. => some counter
  | _ => none

/-- What a statement assigns to. -/
def Statement.target? : Statement → Option Expr
  | assign place _ => some place
  | update place _ _ => some place
  | _ => none

/-- A statement that no variable owns and whose names and places a law does not forbid. -/
structure Law.Allows (L : Law) (st : Statement) : Prop where
  owner : st.owner? = none
  name : ∀ n, st.own? = some n → L.names n
  place : ∀ e, st.target? = some e → L.places e

open Build

/-- A law that is kept by what happens at inputs and by values of any type. -/
structure Law.Plain (L : Law) : Prop where
  registerUniform : ∀ {env} id name type group update value,
    L.Keeps env (registerUniform id name type group update value)
  useUniform : ∀ {env} group u, L.Keeps env (useUniform group u)
  registerTexture : ∀ {env} name, L.Keeps env (registerTexture name)
  useTexture : ∀ {env} name, L.Keeps env (useTexture name)
  registerStorage : ∀ {env s} name element count access, L.inv env s →
    Meets (registerStorage name element count access) env s L.ends fun b s' =>
      L.rel [] s s' ∧ s'.storage.get? name = some b
  /-- Only an entry of the table is used. -/
  useStorage : ∀ {env s} name b, L.inv env s → s.storage.get? name = some b →
    Meets (useStorage name b) env s L.ends fun _ s' => L.rel [] s s'
  registerAttribute : ∀ {env} name type, L.Keeps env (registerAttribute name type)
  /-- Only the vertex program reads attributes. -/
  useAttribute : ∀ {env} name type, env.stage = .vertex → L.Keeps env (useAttribute name type)
  useBuiltin : ∀ {env} b, L.Keeps env (useBuiltin b)
  property : ∀ {env} name type, L.Keeps env (buildProperty name type)
  useType : ∀ {env} type, L.Keeps env (useType type)

/-- A law that is kept by what happens within a block, apart from what binds values. -/
structure Law.Straight (L : Law) : Prop extends L.Plain where
  registerFunction : ∀ {env} f, L.Keeps env (registerFunction f)
  useFunction : ∀ {env} f, L.Keeps env (useFunction f)
  claimLocal : ∀ {env} name, L.Yields env (claimLocal name) L.names
  releaseLocal : ∀ {env} name, L.Keeps env (releaseLocal name)
  claimTemp : ∀ {env}, L.Yields env claimTemp L.names
  /-- A statement that the law allows goes to the open block, with the blocks it holds. -/
  add : ∀ {env s s' st}, L.inv env s → L.Allows st → L.rel st.blocks s s' →
    Meets (addStatement st) env s' L.ends fun _ s'' => L.rel [] s s''

/-- A law that is kept by what happens within blocks and by the blocks themselves. -/
structure Law.Nested (L : Law) : Prop extends L.Straight where
  inBlock : ∀ {env step}, L.Keeps env step → L.Leaves env (inBlock step)

/-- A law that is kept by what happens at single nodes. -/
structure Law.Closed (L : Law) : Prop extends L.Nested where
  bindValue : ∀ {env id n} name, env.plan.node id = .ok n → n.isSpecial = false →
    L.Keeps env (bindValue id name)

/-- A law that does not see the tables. -/
structure Law.Tabular (L : Law) (deep : Prop) : Prop where
  exhausted : deep → L.ends .exhausted
  founded : ∀ {env s}, L.inv env s → ¬deep → env.plan.LayoutsFounded
  rel : ∀ {env s s'}, L.inv env s → s'.core = s.core → L.rel [] s s'
  names : ∀ n, L.names n := by exact fun _ => trivial

/-- A law that does not see the blocks. -/
structure Law.Blockless (L : Law) : Prop where
  stages : ∀ ss s t, L.rel ss s { s with stages := t }
  any : ∀ {ss s s'}, L.rel ss s s' → L.rel [] s s'

theorem Law.Tabular.keeps {L : Law} {deep : Prop} (h : L.Tabular deep) {env : Env} {α : Type}
    {step : Build α}
    (hs : (¬deep → env.plan.LayoutsFounded) → (Law.tables deep).Keeps env step) :
    L.Keeps env step :=
  .ofTables h.exhausted (fun _ _ => h.rel) fun _ hi => hs (h.founded hi)

theorem Law.Blockless.add {L : Law} (h : L.Blockless) {env : Env} {s s' : BuildState}
    {st : Statement} (hr : L.rel st.blocks s s') :
    Meets (addStatement st) env s' L.ends fun _ s'' => L.rel [] s s'' :=
  L.trans (h.any hr) (h.stages [] s' _)

theorem Law.Blockless.inBlock {L : Law} (h : L.Blockless) {env : Env} {step : Build Unit}
    (hs : L.Keeps env step) : L.Leaves env (inBlock step) := by
  intro s hi
  unfold Build.inBlock
  rw [meets_bind, meets_modifyHere, meets_bind]
  have opened := h.stages [] s (s.stages.modify env.stage StageBuild.openBlock)
  refine (hs _ (L.mono hi opened)).imp fun _ s' hr => ?_
  rw [meets_bind, meets_here, meets_bind, meets_modifyHere, meets_pure]
  exact L.trans (L.trans opened hr) (h.stages _ s' _)

/-- A law that does not see the tables is kept by what happens at inputs. -/
theorem Law.Tabular.plain {L : Law} {deep : Prop} (h : L.Tabular deep) : L.Plain where
  registerUniform _ _ _ _ _ _ := h.keeps fun _ => registerUniform_tables _ _ _ _ _ _
  useUniform _ _ := h.keeps fun _ => useUniform_tables _ _
  registerTexture _ := h.keeps fun _ => registerTexture_tables _
  useTexture _ := h.keeps fun _ => useTexture_tables _
  registerStorage _ _ _ _ hi :=
    (h.keeps (fun _ => registerStorage_tables _ _ _ _) _ hi).and (registerStorage_entry _ _ _ _)
  useStorage _ _ hi _ := h.keeps (fun hp => useStorage_tables hp _ _) _ hi
  registerAttribute _ _ := h.keeps fun _ => registerAttribute_tables _ _
  useAttribute _ _ _ := h.keeps fun _ => useAttribute_tables _ _
  useBuiltin _ := h.keeps fun _ => useBuiltin_tables _
  property _ _ := h.keeps fun hp => buildProperty_tables hp _ _
  useType _ := h.keeps fun hp => useType_tables hp _

/-- A law that does not see the tables is kept by what happens within a block, if it is by what
reads functions and adds statements. -/
theorem Law.Tabular.straight {L : Law} {deep : Prop} (h : L.Tabular deep)
    (register : ∀ env f, L.Keeps env (Build.registerFunction f))
    (use : ∀ env f, L.Keeps env (Build.useFunction f))
    (add : ∀ {env s s' st}, L.inv env s → L.Allows st → L.rel st.blocks s s' →
      Meets (addStatement st) env s' L.ends fun _ s'' => L.rel [] s s'') :
    L.Straight where
  toPlain := h.plain
  registerFunction f := register _ f
  useFunction f := use _ f
  claimLocal _ := .ofKeeps (h.keeps fun _ => claimLocal_tables _) h.names
  releaseLocal _ := h.keeps fun _ => releaseLocal_tables _
  claimTemp := .ofKeeps (h.keeps fun _ => claimTemp_tables) h.names
  add := add

/-- It is kept by what happens at single nodes, if it is by what binds values and by blocks, too. -/
theorem Law.Tabular.closed {L : Law} {deep : Prop} (h : L.Tabular deep)
    (register : ∀ env f, L.Keeps env (Build.registerFunction f))
    (use : ∀ env f, L.Keeps env (Build.useFunction f))
    (bind : ∀ env id n name, env.plan.node id = .ok n → n.isSpecial = false →
      L.Keeps env (Build.bindValue id name))
    (add : ∀ {env s s' st}, L.inv env s → L.Allows st → L.rel st.blocks s s' →
      Meets (addStatement st) env s' L.ends fun _ s'' => L.rel [] s s'')
    (inBlock : ∀ {env step}, L.Keeps env step → L.Leaves env (Build.inBlock step)) :
    L.Closed where
  toStraight := h.straight register use add
  inBlock := inBlock
  bindValue name hn hs := bind _ _ _ name hn hs

/-- What is below a node keeps to a law, inside any loops. -/
structure Law.Serves (L : Law) (env : Env) (g : Generator) (id : NodeId) : Prop where
  emit : ∀ l m, m = id ∨ env.plan.resolve id = .ok m →
    L.Keeps { env with loops := l } (g.emit m)
  place : ∀ l, L.Yields { env with loops := l } (g.place id) fun r => L.places r.1
  type : ∀ l m, m = id ∨ env.plan.resolve id = .ok m →
    L.Keeps { env with loops := l } (typeOf m)

namespace Law

variable {L : Law} {env : Env} {g : Generator} {id : NodeId} {α : Type}

theorem Serves.emit' (h : L.Serves env g id) : L.Keeps env (g.emit id) :=
  h.emit env.loops id (.inl rfl)

theorem Serves.place' (h : L.Serves env g id) :
    L.Yields env (g.place id) fun r => L.places r.1 :=
  h.place env.loops

theorem Serves.type' (h : L.Serves env g id) : L.Keeps env (typeOf id) :=
  h.type env.loops id (.inl rfl)

theorem Serves.inLoops (h : L.Serves env g id) (l : List ActiveLoop) :
    L.Serves { env with loops := l } g id :=
  ⟨fun l' => h.emit l', fun l' => h.place l', fun l' => h.type l'⟩

theorem Serves.statement (h : L.Serves env g id) : L.Keeps env (g.statement id) :=
  .discard h.emit'

/-- The value of a node keeps to what its code and its type keep to. -/
theorem Serves.value (h : L.Serves env g id) (target : ValueType) :
    L.Keeps env (g.value id target) := by
  unfold Generator.value
  refine .resolve fun m hm => .located ?_
  refine .bind (h.emit env.loops m (.inr hm)) fun e => ?_
  refine .bind (h.type env.loops m (.inr hm)) fun type => ?_
  split
  · exact .when (fun _ => .fail rfl) fun _ => .ofExcept fun _ _ => rfl
  · exact .fail rfl

theorem Keeps.values {ids : List (NodeId × ValueType)}
    (h : ∀ v ∈ ids, L.Serves env g v.1) : L.Keeps env (g.values ids) :=
  .mapM fun v hv => (h v hv).value v.2

/-! ### Types -/

theorem Keeps.constantType (type : ValueType) (values : List Float) :
    L.Keeps env (Build.ofExcept (ShaderGraph.constantType type values)) :=
  .ofExcept fun _ _ => rfl

theorem Keeps.attributeType (name : String) (explicit : Option ValueType) :
    L.Keeps env (attributeType name explicit) := by
  refine .read ?_
  split
  · exact .pure _
  · exact .fail rfl

theorem Keeps.counterType (loop : NodeId) (param : Nat) :
    L.Keeps env (counterType loop param) := by
  refine .resolve fun m _ => .node fun n _ => ?_
  split
  · split
    · exact .pure _
    · exact .fail rfl
  · exact .fail rfl

theorem Keeps.structType (layout : NodeId) : L.Keeps env (structType layout) := by
  refine .resolve fun m _ => .node fun n _ => ?_
  split
  · exact .pure _
  · exact .fail rfl

theorem Keeps.memberType (base : ValueType) (name : String) :
    L.Keeps env (memberType base name) := by
  unfold Build.memberType
  split
  · refine .structMembers fun members _ => ?_
    split
    · exact .pure _
    · exact .fail rfl
  · exact .fail rfl

theorem Keeps.elementType (base index : ValueType) : L.Keeps env (elementType base index) := by
  unfold Build.elementType
  refine .when (fun _ => .fail rfl) fun _ => ?_
  split
  · exact .pure _
  · exact .fail rfl

theorem Keeps.conditionalType {typeOf : NodeId → Build ValueType} {condition thenNode : NodeId}
    {elseNode : Option NodeId}
    (h : ∀ c ∈ condition :: thenNode :: elseNode.toList, L.Keeps env (typeOf c)) :
    L.Keeps env (conditionalType typeOf condition thenNode elseNode) := by
  refine .bind (h _ (.head _)) fun c => .when (fun _ => .fail rfl) fun _ => ?_
  cases elseNode with
  | none => exact .pure _
  | some elseNode =>
    refine .bind (h _ (.tail _ (.head _))) fun t => ?_
    refine .bind (h _ (.tail _ (.tail _ (.head _)))) fun e => ?_
    exact .when (fun _ => .fail rfl) fun _ => .pure _

/-- The type of a node keeps to what the types of the nodes below it keep to. -/
theorem Keeps.typeOfNode {typeOf : NodeId → Build ValueType} {n : Node}
    (hf : ∀ f, L.Keeps env (registerFunction f)) (hn : ∀ inner values, n ≠ .context inner values)
    (hv : ∀ key fallback, n ≠ .contextValue key fallback)
    (h : ∀ c ∈ n.children, L.Keeps env (typeOf c)) : L.Keeps env (typeOfNode typeOf id n) := by
  cases n with
  | const type values => exact .constantType type values
  | meshAttribute name type => exact .attributeType name type
  | varying source => exact h source (.head _)
  | var value =>
    exact .bind (h value (.head _)) fun t => .when (fun _ => .fail rfl) fun _ => .pure _
  | operator op left right =>
    refine .bind (h left (.head _)) fun l => .bind (h right (.tail _ (.head _))) fun r => ?_
    exact .ofExcept fun _ _ => rfl
  | unary op operand => exact .bind (h operand (.head _)) fun t => .ofExcept fun _ _ => rfl
  | math method args => exact .bind (.mapM h) fun ts => .ofExcept fun _ _ => rfl
  | split source components =>
    exact .bind (h source (.head _)) fun t => .ofExcept fun _ _ => rfl
  | join parts explicit => exact .bind (.mapM h) fun ts => .ofExcept fun _ _ => rfl
  | conditional condition thenNode elseNode => exact .conditionalType h
  | loopIndex loop param => exact .counterType loop param
  | stack nodes output =>
    cases output with
    | none => exact .pure _
    | some output => exact h output (by simp [NodeOf.children])
  | struct layout values => exact .structType layout
  | array element values => exact .ofExcept fun _ _ => rfl
  | member base name => exact .bind (h base (.head _)) fun t => .memberType t name
  | index base i =>
    refine .bind (h base (.head _)) fun t => ?_
    exact .bind (h i (.tail _ (.head _))) fun t' => .elementType t t'
  | context inner values => exact absurd rfl (hn inner values)
  | contextValue key fallback => exact absurd rfl (hv key fallback)
  | cache inner => exact h inner (.head _)
  | call f args => exact .bind (hf f) fun e => .pure _
  | remap => exact .fail rfl
  | custom => exact .fail rfl
  | _ => exact .pure _

/-! ### Structs and functions -/

/-- Marking the structs of a type keeps to a law that marking one struct keeps to. -/
theorem Keeps.markTypeIn (deep : L.ends .exhausted)
    (mark : ∀ name, L.Keeps env (modifyHere fun b =>
      { b with structs := appendNew b.structs name })) (fuel : Nat) (t : ValueType) :
    L.Keeps env (markTypeIn fuel t) := by
  induction fuel generalizing t with
  | zero => exact fun _ _ => deep
  | succ fuel ih =>
    cases t with
    | struct name =>
      rw [Build.markTypeIn]
      refine .bind .here fun b => .ite (fun _ => .pure _) fun _ =>
        .structMembers fun members _ => ?_
      exact .bind (.forIn fun m _ => ih m.type) fun _ => mark name
    | array element count => exact ih element
    | _ => exact .pure _

theorem Keeps.useType (h : ∀ t, L.Keeps env (markType t)) (t : ValueType) :
    L.Keeps env (useType t) := by
  refine .bind (h t) fun _ => .bind .dialect fun d => ?_
  split
  · exact .fail rfl
  · exact .pure _

/-- Reading a function keeps to a law that entering one which was read keeps to. -/
theorem Keeps.readFunctionIn (deep : L.ends .exhausted)
    (enter : ∀ id native includes, env.plan.graph.function? id = some native → L.Keeps env (do
      let f ← Build.ofExcept (Native.Declaration.read native.dialect native.source)
      let entry ← Build.functionEntry native f includes
      modify fun s => { s with functions := s.functions.put id entry }
      return entry))
    (fuel : Nat) (path : List FunctionId) (id : FunctionId) :
    L.Keeps env (registerFunctionIn fuel path id) := by
  induction fuel generalizing path id with
  | zero => exact fun _ _ => deep
  | succ fuel ih =>
    rw [Build.registerFunctionIn]
    refine .get fun s => ?_
    split
    · exact .pure _
    refine .when (fun _ => .fail rfl) fun _ => .read ?_
    split
    · exact .fail rfl
    · next native known =>
      exact .bind (.mapM fun i _ => ih _ i) fun includes => enter id native _ known

/-- Reading a function keeps to a law that taking names and entering it keep to. -/
theorem Keeps.registerFunctionIn (deep : L.ends .exhausted)
    (claim : ∀ name, L.Keeps env (claimGlobal name))
    (reserve : ∀ name, L.Keeps env (reserveGlobal name))
    (put : ∀ id e, L.Keeps env (modify fun s => { s with functions := s.functions.put id e }))
    (fuel : Nat) (path : List FunctionId) (id : FunctionId) :
    L.Keeps env (registerFunctionIn fuel path id) := by
  refine .readFunctionIn deep (fun id native includes _ => ?_) fuel path id
  refine .bind (.ofExcept fun _ _ => rfl) fun f => ?_
  refine .bind (.functionEntry claim reserve native f includes) fun entry => ?_
  exact .bind (put id entry) fun _ => .pure _

/-- Declaring a function keeps to a law that its parts keep to. -/
theorem Keeps.useFunctionIn (deep : L.ends .exhausted) (mark : ∀ t, L.Keeps env (markType t))
    (register : ∀ id, L.Keeps env (registerFunction id))
    (declare : ∀ id, L.Keeps env (modifyHere fun b =>
      { b with functions := appendNew b.functions id })) (fuel : Nat) (id : FunctionId) :
    L.Keeps env (useFunctionIn fuel id) := by
  induction fuel generalizing id with
  | zero => exact fun _ _ => deep
  | succ fuel ih =>
    rw [Build.useFunctionIn]
    refine .bind (register id) fun entry => .bind .here fun b => ?_
    refine .ite (fun _ => .pure _) fun _ => .bind (.forIn fun i _ => ih i) fun _ => ?_
    exact .bind (.forIn fun q _ => mark _) fun _ => .bind (mark _) fun _ => declare id

/-! ### Bound names -/

theorem Keeps.isVisible (bound : BoundName) : L.Keeps env (isVisible bound) :=
  .read (.bind .here fun _ => .pure _)

theorem Keeps.boundName? (id : NodeId) : L.Keeps env (boundName? id) := by
  refine .read (.get fun s => ?_)
  split
  · exact .bind (.isVisible _) fun visible => .pure _
  · exact .pure _

theorem Keeps.usage (id : NodeId) : L.Keeps env (usage id) := .read (.get fun _ => .pure _)

/-- A statement that declares nothing and assigns to nothing is allowed by any law. -/
theorem Allows.plain {st : Statement} (ho : st.owner? = none) (hd : st.own? = none)
    (ht : st.target? = none) : L.Allows st where
  owner := ho
  name _ hn := nomatch hd.symm.trans hn
  place _ he := nomatch ht.symm.trans he

/-- The declaration of a name that the law does not forbid. -/
theorem Allows.declare {name : String} {type : ValueType} {init : Option Expr} {m : Mutability}
    (h : L.names name) : L.Allows (.declare name type init m none) where
  owner := rfl
  name _ hn := Option.some.inj hn ▸ h
  place _ he := nomatch he

/-- An assignment to a place that the law does not forbid. -/
theorem Allows.assign {place value : Expr} (h : L.places place) :
    L.Allows (.assign place value) where
  owner := rfl
  name _ hn := nomatch hn
  place _ he := Option.some.inj he ▸ h

theorem Allows.update {place value : Expr} {op : BinaryOp} (h : L.places place) :
    L.Allows (.update place op value) where
  owner := rfl
  name _ hn := nomatch hn
  place _ he := Option.some.inj he ▸ h

theorem Keeps.declareTemp (hL : L.Straight) (type : ValueType) (init : Option Expr)
    (m : Mutability) : L.Keeps env (declareTemp type init m) := by
  refine .bind (hL.useType type) fun _ => .using hL.claimTemp fun name hn => ?_
  exact .bind (fun s hs => hL.add hs (.declare hn) (L.refl s)) fun _ => .pure _

/-- A plain statement. -/
theorem Keeps.add (hL : L.Straight) {st : Statement} (ha : L.Allows st)
    (hb : st.blocks = []) : L.Keeps env (addStatement st) :=
  fun s hs => hL.add hs ha (hb ▸ L.refl s)

/-- A step whose result is added as a plain statement. -/
theorem Keeps.addResult (hL : L.Straight) {step : Build Statement} (h : L.Keeps env step)
    (hp : Returns (fun st => L.Allows st ∧ st.blocks = []) step) :
    L.Keeps env (step >>= addStatement) := by
  intro s hs
  rw [meets_bind]
  refine ((h s hs).and (hp env s)).imp fun st s' hst => ?_
  obtain ⟨hr, ha, hb⟩ := hst
  exact hL.add hs ha (hb ▸ hr)

variable {n : Node}

/-- A value that may get a name keeps to what the step that computes it keeps to. -/
theorem Keeps.buildTemp (hL : L.Straight) (bind : ∀ name, L.Keeps env (Build.bindValue id name))
    (ht : L.Keeps env (typeOf id)) {step : Build (Option Expr)} (h : L.Keeps env step) :
    L.Keeps env (buildTemp id step) := by
  refine .bind (.boundName? id) fun bound => ?_
  split
  · exact .pure _
  · refine .bind h fun e => .bind ht fun type => ?_
    split
    · exact .pure _
    · refine .bind (.usage id) fun count => .ite (fun _ => .pure _) fun _ => ?_
      refine .bind (.declareTemp hL _ _ _) fun name => ?_
      exact .bind (bind name) fun _ => .pure _

/-! ### Expressions -/

theorem Keeps.buildConstant (hL : L.Plain) (type : ValueType) (values : List Float) :
    L.Keeps env (buildConstant type values) := by
  refine .bind (.discard (.constantType type values)) fun _ => ?_
  exact .ite (fun _ => .pure _) fun _ => .bind (hL.useType type) fun _ => .pure _

theorem Keeps.buildAttribute (hL : L.Plain) (name : String) (type : Option ValueType) :
    L.Keeps env (buildAttribute name type) := by
  intro s hs
  unfold Build.buildAttribute
  rw [meets_bind, meets_stage]
  refine (meets_ite _ _ _).2 ⟨fun _ => L.ordinary rfl, fun h => ?_⟩
  exact hL.useAttribute name type (not_not.1 h) s hs

theorem Keeps.buildStorage (hL : L.Plain) (name : String) (element : ValueType)
    (count : Option UInt32) (access : Access) :
    L.Keeps env (buildStorage name element count access) := by
  intro s hs
  unfold Build.buildStorage
  rw [meets_bind]
  refine (hL.registerStorage name element count access hs).imp ?_
  rintro b s' ⟨hr, hb⟩
  exact (hL.useStorage name b (L.mono hs hr) hb).imp fun _ _ hr' => L.trans hr hr'

/-- A varying is listed among those of a stage. -/
theorem Tabular.mark {deep : Prop} (h : L.Tabular deep) (id : NodeId) :
    L.Keeps env (modifyHere fun b => { b with varyings := appendNew b.varyings id }) :=
  h.keeps fun _ => tables_modifyHere (fun _ => rfl) fun _ => rfl

/-- The vertex program assigns to a varying. -/
theorem Keeps.assignVarying {source : NodeId}
    (own : ∀ v e, L.Keeps env (addStatement (.assign (.reference (.varying .vertex v)) e)))
    (mark : L.Keeps env (modifyHere fun b => { b with varyings := appendNew b.varyings id }))
    (hs : L.Serves env g source) (v : String) (type : ValueType) : L.Keeps env (do
      let e ← g.value source type
      addStatement (.assign (.reference (.varying .vertex v)) e)
      modifyHere fun b => { b with varyings := appendNew b.varyings id }) :=
  .bind (hs.value type) fun e => .bind (own v e) fun _ => mark

section Varying

variable {M : Law} {source : NodeId} {name : Option String} {interpolation : Interpolation}
  {sampling : Option Sampling}
  (assign : ∀ v type, M.Keeps (within env .vertex) (do
    let e ← g.value source type
    addStatement (.assign (.reference (.varying .vertex v)) e)
    modifyHere fun b => { b with varyings := appendNew b.varyings id }))
  (mark : L.Keeps env (modifyHere fun b => { b with varyings := appendNew b.varyings id }))
  (shift : ∀ {step : Build Unit}, M.Keeps (within env .vertex) step →
    L.Keeps env (Build.inStage .vertex step))
  {R : VaryingEntry → BuildState → Prop} (hR : ∀ v s, R v s → v.source = source)
  (stable : ∀ v s s', L.rel [] s s' → R v s → R v s')
  (register : ∀ s, L.inv env s →
    Meets (registerVarying id source name interpolation sampling) env s L.ends fun v s' =>
      L.rel [] s s' ∧ R v s')
  (locate : ∀ v s, L.inv env s → R v s →
    Meets (locateVarying id v) env s L.ends fun _ s' => L.rel [] s s')

include assign mark shift hR stable register locate

/-- A varying is written by the vertex program and declared by the fragment program, and its name is
the answer. What the vertex program keeps to is another law `M`; `R` is what is known of the entry of
the varying. -/
theorem meets_buildVarying {s : BuildState} (hi : L.inv env s) :
    Meets (buildVarying g id source name interpolation sampling) env s L.ends fun e s' =>
      L.rel [] s s' ∧ ∃ v, e = .reference (.varying env.stage v.name) ∧ R v s' := by
  unfold Build.buildVarying
  rw [meets_bind, meets_stage]
  refine (meets_ite _ _ _).2 ⟨fun _ => L.ordinary rfl, fun _ => ?_⟩
  show Meets (registerVarying id source name interpolation sampling >>= _) env s L.ends _
  rw [meets_bind]
  refine (register s hi).imp ?_
  rintro v s' ⟨hr, hv⟩
  -- the assignment in the vertex program keeps to the law of that stage
  have assign := assign v.name v.type
  rw [← hR v s' hv] at assign
  have write : Meets (writeVarying g id v) env s' L.ends fun _ s'' => L.rel [] s' s'' := by
    refine (meets_ite _ _ _).2 ⟨fun _ => L.refl s', fun _ => ?_⟩
    have hi' := L.mono hi hr
    show Meets (Build.inStage .vertex _ >>= _) env s' L.ends _
    rw [meets_bind]
    refine (shift assign s' hi').imp fun _ s₁ h₁ => ?_
    exact (locate v s₁ (L.mono hi' h₁) (stable v _ _ h₁ hv)).imp fun _ _ h => L.trans h₁ h
  rw [meets_bind]
  refine write.imp fun _ s'' hr' => ?_
  have hr'' := L.trans hr hr'
  have known := stable v _ _ hr' hv
  refine (meets_ite _ _ _).2 ⟨fun _ => ?_, fun _ => ⟨hr'', v, rfl, known⟩⟩
  show Meets (modifyHere _ >>= _) env s'' L.ends _
  rw [meets_bind]
  refine (mark s'' (L.mono hi hr'')).imp fun _ s₃ h₃ => ?_
  exact ⟨L.trans hr'' h₃, v, rfl, stable v _ _ h₃ known⟩

theorem Keeps.buildVarying : L.Keeps env (buildVarying g id source name interpolation sampling) :=
  fun _ hi => (meets_buildVarying assign mark shift hR stable register locate hi).imp fun _ _ hr => hr.1

end Varying

theorem Keeps.buildTexture (hL : L.Plain) {name : String} {uv : NodeId} {level : Option NodeId}
    (h : ∀ c ∈ uv :: level.toList, L.Serves env g c) :
    L.Keeps env (buildTexture g name uv level) := by
  refine .bind ((h uv (.head _)).value _) fun uv => .bind ?_ fun level => ?_
  · cases level with
    | none => exact .bind .stage fun _ => .pure _
    | some level => exact .bind ((h level (.tail _ (.head _))).value _) fun _ => .pure _
  · exact .bind (hL.useTexture name) fun t => .pure _

theorem Keeps.buildOperator {op : BinaryOp} {left right : NodeId} (hl : L.Serves env g left)
    (hr : L.Serves env g right) : L.Keeps env (buildOperator g op left right) := by
  refine .bind hl.type' fun l => .bind hr.type' fun r => ?_
  refine .bind (.ofExcept fun _ _ => rfl) fun result => ?_
  refine .bind (hl.value _) fun left => .bind (hr.value _) fun right => ?_
  exact .ite (fun _ => .pure _) fun _ => .pure _

theorem Keeps.buildUnary {op : UnaryOp} {operand : NodeId} (h : L.Serves env g operand) :
    L.Keeps env (buildUnary g op operand) := by
  refine .bind h.type' fun t => .bind (.discard (.ofExcept fun _ _ => rfl)) fun _ => ?_
  exact .bind h.emit' fun e => .pure _

theorem Keeps.buildMath {m : MathMethod} {args : List NodeId} (ht : L.Keeps env (typeOf id))
    (h : ∀ c ∈ args, L.Serves env g c) : L.Keeps env (buildMath g id m args) := by
  refine .bind .stage fun stage => .when (fun _ => .fail rfl) fun _ => ?_
  refine .bind ht fun result => .bind (.mapM fun c hc => (h c hc).type') fun types => ?_
  refine .bind (.ofExcept fun _ _ => rfl) fun targets => .bind (.values ?_) fun es => .pure _
  exact fun v hv => h v.1 (List.of_mem_zip hv).1

theorem Keeps.buildSplit {source : NodeId} {components : String} (h : L.Serves env g source) :
    L.Keeps env (buildSplit g source components) := by
  refine .bind h.type' fun type => .bind (.discard (.ofExcept fun _ _ => rfl)) fun _ => ?_
  refine .bind (.ofExcept fun _ _ => rfl) fun cs => ?_
  exact .bind h.emit' fun e => .pure _

theorem Keeps.buildJoin (hL : L.Plain) {parts : List NodeId} (ht : L.Keeps env (typeOf id))
    (h : ∀ c ∈ parts, L.Serves env g c) : L.Keeps env (buildJoin g id parts) := by
  refine .bind ht fun type => .bind (.mapM fun c hc => ?_) fun es => ?_
  · exact .bind (h c hc).type' fun t => (h c hc).value _
  · exact .bind (hL.useType type) fun _ => .pure _

theorem Keeps.buildConvert {source : NodeId} {target : ValueType} (h : L.Serves env g source) :
    L.Keeps env (buildConvert g source target) := by
  refine .bind h.type' fun type => .bind h.emit' fun e => ?_
  split
  · exact .bind (.ofExcept fun _ _ => rfl) fun e => .pure _
  · exact .when (fun _ => .fail rfl) fun _ => .pure _

theorem Keeps.buildStruct (hL : L.Plain) {values : List NodeId} (ht : L.Keeps env (typeOf id))
    (h : ∀ c ∈ values, L.Serves env g c) : L.Keeps env (buildStruct g id values) := by
  refine .bind ht fun type => .structMembers fun members _ => .when (fun _ => .fail rfl) fun _ => ?_
  refine .bind (.values fun v hv => h v.1 (List.of_mem_zip hv).1) fun es => ?_
  exact .bind (hL.useType type) fun _ => .pure _

theorem Keeps.buildArray (hL : L.Plain) {element : ValueType} {values : List NodeId}
    (h : ∀ c ∈ values, L.Serves env g c) : L.Keeps env (buildArray g element values) := by
  refine .bind (.ofExcept fun _ _ => rfl) fun type => .bind (.values ?_) fun es => ?_
  · intro v hv
    obtain ⟨c, hc, rfl⟩ := List.mem_map.1 hv
    exact h c hc
  · exact .bind (hL.useType type) fun _ => .pure _

theorem Keeps.buildMember {base : NodeId} {name : String} (h : L.Serves env g base) :
    L.Keeps env (buildMember g base name) := by
  refine .bind h.type' fun type => .bind (.discard (.memberType type name)) fun _ => ?_
  exact .bind h.emit' fun e => .pure _

theorem Keeps.checkIndex (base : ValueType) (i : NodeId) : L.Keeps env (checkIndex base i) := by
  refine .resolve fun m _ => .node fun n _ => ?_
  split
  · exact .ite (fun _ => .fail rfl) fun _ => .pure _
  · exact .pure _

theorem Keeps.buildElement {base : Option Expr} {source i : NodeId}
    (hs : L.Serves env g source) (hi : L.Serves env g i) :
    L.Keeps env (buildElement g base source i) := by
  refine .bind hs.type' fun type => .bind hi.type' fun index => ?_
  refine .bind (.discard (.elementType type index)) fun _ => .bind (.checkIndex type i) fun _ => ?_
  exact .bind (hi.value index) fun i => .pure _

theorem Keeps.buildIndex {base i : NodeId} (hb : L.Serves env g base) (hi : L.Serves env g i) :
    L.Keeps env (buildIndex g base i) :=
  .bind hb.emit' fun _ => .buildElement hb hi

/-! ### Places and assignments -/

/-- A storage buffer whose elements are assigned to. -/
theorem Keeps.bufferPlace (hL : L.Plain) (name : String) (element : ValueType)
    (count : Option UInt32) (access : Access) : L.Keeps env (do
      let b ← registerStorage name element count access
      let e ← useStorage name b
      if b.access = .read then Build.fail (LayoutError.readOnlyBuffer name)
      return e) := by
  intro s hs
  rw [meets_bind]
  refine (hL.registerStorage name element count access hs).imp ?_
  rintro b s' ⟨hr, hb⟩
  rw [meets_bind]
  refine (hL.useStorage name b (L.mono hs hr) hb).imp fun e s'' hr' => ?_
  have done : L.Keeps env (do
      if b.access = .read then Build.fail (LayoutError.readOnlyBuffer name)
      return e) := .when (fun _ => .fail rfl) fun _ => .pure _
  have hr'' := L.trans hr hr'
  exact (done s'' (L.mono hs hr'')).imp fun _ _ h => L.trans hr'' h

theorem Keeps.placeBase (hL : L.Plain) {base : NodeId} (h : L.Serves env g base) :
    L.Keeps env (placeBase g base) := by
  refine .resolve fun m _ => .node fun n _ => ?_
  split
  · exact .bufferPlace hL _ _ _ _
  · exact .bind h.place'.keeps fun e => .pure _

/-- The place of a node keeps to what its own code and the places below it keep to. -/
theorem Keeps.placeOf (hL : L.Plain) {type : ValueType} (he : L.Keeps env (g.emit id))
    (h : ∀ c ∈ n.children, L.Serves env g c) : L.Keeps env (placeOf g id type n) := by
  have own : L.Keeps env (ownPlace g id type) := by
    refine .bind he fun e => ?_
    cases e with
    | some e => exact .pure e
    | none => exact Keeps.fail rfl
  cases n with
  | var value name readOnly =>
    cases readOnly with
    | true => exact Keeps.fail rfl
    | false => exact own
  | property name type => exact own
  | member base name => exact .bind (h base (.head _)).place'.keeps fun e => .pure _
  | index base i =>
    refine .bind (.placeBase hL (h base (.head _))) fun e => ?_
    refine .bind (.buildElement (h base (.head _)) (h i (.tail _ (.head _)))) fun e => ?_
    cases e with
    | some e => exact .pure e
    | none => exact .fail rfl
  | split base components =>
    refine .bind .dialect fun d => ?_
    have rest : L.Keeps env (swizzlePlace g base components) :=
      .bind (h base (.head _)).place'.keeps fun e =>
        .bind (.ofExcept fun _ _ => rfl) fun cs => .pure _
    refine .ite (fun _ => ?_) fun _ => rest
    exact .bind .dialect fun d => .bind (.fail rfl) fun _ => rest
  | _ => exact .fail rfl

theorem Keeps.mutability (value : NodeId) (readOnly : Bool) :
    L.Keeps env (mutability value readOnly) := by
  refine .ite (fun _ => .pure _) fun _ => .resolve fun m _ => .node fun n _ => ?_
  split
  · exact .pure _
  · exact .pure _

theorem Keeps.recordKey (id : NodeId) : L.Keeps env (recordKey id) := .read (.get fun _ => .pure _)

theorem Yields.prepareVariable (hL : L.Straight) (ht : L.Keeps env (typeOf id)) {value : NodeId}
    (hv : L.Serves env g value) (name : Option String) :
    L.Yields env (prepareVariable g id value name) fun r => L.names r.2.2 := by
  refine .after ht fun type => .after (hv.value type) fun init => .after (hL.useType type) fun _ => ?_
  have named : ∀ {step : Build String}, L.Yields env step L.names →
      L.Yields env ((fun name => (type, init, name)) <$> step) fun r => L.names r.2.2 :=
    fun h => h.map fun _ hn => hn
  cases name with
  | some name => exact named (hL.claimLocal name)
  | none => exact named hL.claimTemp

/-- A variable, where its declaration is taken for granted. -/
theorem Keeps.buildVariable (hL : L.Straight) (ht : L.Keeps env (typeOf id)) {value : NodeId}
    {name : Option String} {readOnly : Bool} (hv : L.Serves env g value)
    (hd : ∀ name type init, L.names name →
      L.Keeps env (declareVariable id value readOnly name type init)) :
    L.Keeps env (buildVariable g id value name readOnly) := by
  refine .bind (.boundName? id) fun bound => ?_
  split
  · exact .pure _
  · refine .using (.prepareVariable hL ht hv name) fun v hn => ?_
    exact .bind (hd _ _ _ hn) fun _ => .pure _

theorem Keeps.buildAssign (hL : L.Straight) {target value : NodeId} {op : Option BinaryOp}
    (ht : L.Serves env g target) (hv : L.Serves env g value) :
    L.Keeps env (buildAssign g target value op) := by
  refine .using ht.place' fun place hp => ?_
  cases op with
  | none =>
    refine .addResult hL (.bind (hv.value _) fun e => .pure _) (.bind fun e => .pure ?_)
    exact ⟨.assign hp, rfl⟩
  | some op =>
    refine .addResult hL ?_ ?_
    · refine .bind hv.type' fun t => .bind (.ofExcept fun _ _ => rfl) fun result => ?_
      refine .when (fun _ => .fail rfl) fun _ => .bind (hv.value _) fun e => ?_
      exact .ite (fun _ => .pure _) fun _ => .pure _
    · refine .bind fun t => .bind fun result => ?_
      have rest : Returns (fun st => L.Allows st ∧ st.blocks = []) (do
          let e ← g.value value (op.updateOperand place.2 t)
          if op = .rem && place.2.scalarKind.getD .float = .float then
            return Statement.assign place.1 (.remainder place.1 e)
          return Statement.update place.1 op e) :=
        .bind fun e => .ite (.pure ⟨.assign hp, rfl⟩) (.pure ⟨.update hp, rfl⟩)
      exact .ite (.bind fun _ => rest) rest

/-! ### Branches -/

theorem arePureFrom_error {p : Plan} {fuel : Nat} {ids seen : List NodeId} {e : GraphError}
    (h : arePureFrom p fuel ids seen = .error e) : (Cause.graph e).isCycle = false := by
  induction fuel generalizing ids seen with
  | zero => cases h
  | succ fuel ih =>
    cases ids with
    | nil => cases h
    | cons id rest =>
      rw [arePureFrom] at h
      split at h
      · next hr =>
        cases h
        exact Cause.isCycle_of_isOfWalk (resolve_error hr)
      · split at h
        · exact ih h
        · split at h
          · next hr =>
            cases h
            exact Cause.isCycle_of_isOfWalk (node_error hr)
          · split at h
            · cases h
            · exact ih h

theorem Keeps.arePure (ids : List NodeId) : L.Keeps env (arePure ids) :=
  .read (.ofExcept fun _ => arePureFrom_error)

theorem Leaves.buildBranch (hL : L.Nested) {result : String} {type : ValueType}
    (h : L.Serves env g id) : L.Leaves env (buildBranch g result type id) :=
  hL.inBlock (.bind (h.value type) fun _ => .add hL.toStraight (.assign (L.locals result)) rfl)

/-- A statement that holds one block. -/
theorem Keeps.hold (hL : L.Straight) {step : Build (List Statement)}
    {st : List Statement → Statement} {next : Unit → Build α} (h : L.Leaves env step)
    (ha : ∀ ss, L.Allows (st ss)) (hb : ∀ ss, (st ss).blocks = ss)
    (hn : ∀ u, L.Keeps env (next u)) :
    L.Keeps env (step >>= fun ss => addStatement (st ss) >>= next) := by
  intro s hs
  rw [meets_bind]
  refine (h s hs).imp fun ss s' hr => ?_
  rw [meets_bind]
  refine (hL.add hs (ha ss) ((hb ss).symm ▸ hr)).imp fun u s'' hr' => ?_
  exact (hn u s'' (L.mono hs hr')).imp fun _ _ hr'' => L.trans hr' hr''

/-- A statement that holds two blocks. -/
theorem Keeps.holdBoth (hL : L.Straight) {condition : Expr} {t e : Build (List Statement)}
    {next : Unit → Build α} (ht : L.Leaves env t) (he : L.Leaves env e)
    (hn : ∀ u, L.Keeps env (next u)) :
    L.Keeps env (t >>= fun t => e >>= fun e =>
      addStatement (.branch condition t (some e)) >>= next) := by
  intro s hs
  rw [meets_bind]
  refine (ht s hs).imp fun ss s' hr => ?_
  rw [meets_bind]
  refine (he s' (L.mono hs hr)).imp fun ss' s'' hr' => ?_
  have hr'' : L.rel (Statement.branch condition ss (some ss')).blocks s s'' := L.trans hr hr'
  rw [meets_bind]
  refine (hL.add hs (.plain rfl rfl rfl) hr'').imp fun u s₃ h₃ => ?_
  exact (hn u s₃ (L.mono hs h₃)).imp fun _ _ h₄ => L.trans h₃ h₄

theorem Keeps.buildChoice (hL : L.Nested) (bind : ∀ name, L.Keeps env (Build.bindValue id name))
    (hi : L.Keeps env (typeOf id)) {type : ValueType}
    {condition : Expr} {thenNode elseNode : NodeId} (ht : L.Serves env g thenNode)
    (he : L.Serves env g elseNode) :
    L.Keeps env (buildChoice g id type condition thenNode elseNode) := by
  refine .bind (.arePure _) fun pure => .ite (fun _ => ?_) fun _ => ?_
  · refine .buildTemp hL.toStraight bind hi ?_
    exact .bind (ht.value _) fun t => .bind (he.value _) fun e => .pure _
  · refine .bind (.declareTemp hL.toStraight _ _ _) fun result => ?_
    refine .holdBoth hL.toStraight (.buildBranch hL ht) (.buildBranch hL he) fun _ => ?_
    exact .bind (bind result) fun _ => .pure _

theorem Keeps.buildConditional (hL : L.Nested)
    (bind : ∀ name, L.Keeps env (Build.bindValue id name)) (hi : L.Keeps env (typeOf id))
    {condition thenNode : NodeId} {elseNode : Option NodeId}
    (h : ∀ c ∈ condition :: thenNode :: elseNode.toList, L.Serves env g c) :
    L.Keeps env (buildConditional g id condition thenNode elseNode) := by
  have ht : L.Serves env g thenNode := h _ (.tail _ (.head _))
  refine .bind (.boundName? id) fun bound => ?_
  split
  · exact .pure _
  refine .bind hi fun type => .bind ((h _ (.head _)).value _) fun c => ?_
  cases elseNode with
  | none =>
    refine .hold hL.toStraight (hL.inBlock ht.statement) (fun _ => .plain rfl rfl rfl)
      (fun ss => ?_) fun _ => .pure _
    exact List.append_nil ss
  | some elseNode =>
    have he : L.Serves env g elseNode := h _ (.tail _ (.tail _ (.head _)))
    refine .ite (fun _ => ?_) fun _ => .buildChoice hL bind hi ht he
    exact .holdBoth hL.toStraight (hL.inBlock ht.statement) (hL.inBlock he.statement)
      fun _ => .pure _

/-! ### Loops, stacks and calls -/

theorem Keeps.buildBound {type : ValueType} {kind : ScalarKind} {b : LoopBound NodeId}
    (h : ∀ c, b = .node c → L.Serves env g c) : L.Keeps env (buildBound g type kind b) := by
  cases b with
  | value v => exact .pure _
  | node c => exact (h c rfl).value _

/-- The levels of a loop; the body is inside of all of them. -/
theorem Keeps.buildLevels (hL : L.Nested) {body : Option NodeId} {level : Nat}
    {params : List (LoopParam NodeId)} {l : List ActiveLoop}
    (h : ∀ c ∈ params.flatMap LoopParam.children ++ body.toList, L.Serves env g c) :
    L.Keeps { env with loops := l } (buildLevels g id body level params) := by
  induction params generalizing level l with
  | nil =>
    cases body with
    | none => exact .pure _
    | some body => exact ((h body (.head _)).inLoops l).statement
  | cons p rest ih =>
    have bound : ∀ b, b = p.start ∨ b = p.stop → ∀ c, b = .node c →
        L.Serves { env with loops := l } g c := by
      intro b hb c hc
      refine (h c ?_).inLoops l
      rw [List.flatMap_cons, LoopParam.children]
      rcases hb with rfl | rfl
      · simp [hc]
      · simp [hc]
    -- the levels further in see this loop; the law does not depend on the loops
    have inner : ∀ counter, L.Leaves { env with loops := l }
        (Build.inLoop ⟨id, level, counter⟩
          (inBlock (Build.buildLevels g id body (level + 1) rest))) := by
      intro counter s hs
      refine hL.inBlock (ih fun c hc => h c ?_) s (@Law.loops L { env with loops := l } _ _ hs)
      rw [List.flatMap_cons, List.append_assoc]
      exact List.mem_append_right _ hc
    rw [Build.buildLevels]
    refine .bind (.ofExcept fun e he => rfl) fun kind => ?_
    refine .read (.using (hL.claimLocal _) fun counter hn => .bind (hL.useType _) fun _ => ?_)
    refine .bind (.buildBound (bound _ (.inl rfl))) fun start => ?_
    refine .bind (.buildBound (bound _ (.inr rfl))) fun stop => ?_
    intro s hs
    rw [meets_bind]
    refine (inner counter s hs).imp fun ss s' hr => ?_
    rw [meets_bind]
    refine (hL.releaseLocal counter s' (L.mono hs hr)).imp fun _ s'' hr' => hL.add hs ?_ ?_
    · exact ⟨rfl, fun _ he => Option.some.inj he ▸ hn, fun _ he => nomatch he⟩
    · exact List.append_nil ss ▸ L.trans hr hr'

theorem Keeps.buildLoop (hL : L.Nested) {params : List (LoopParam NodeId)}
    {body : Option NodeId}
    (h : ∀ c ∈ params.flatMap LoopParam.children ++ body.toList, L.Serves env g c) :
    L.Keeps env (buildLoop g id params body) :=
  .when (fun _ => .fail rfl) fun _ => .buildLevels (l := env.loops) hL h

theorem Keeps.buildCounter (loop : NodeId) (param : Nat) :
    L.Keeps env (buildCounter loop param) := by
  refine .resolve fun m _ => .read ?_
  split
  · exact .pure _
  · exact .fail rfl

theorem Keeps.buildJump (hL : L.Straight) (j : Jump) : L.Keeps env (buildJump j) :=
  .read (.when (fun _ => .fail rfl) fun _ => .add hL (.plain rfl rfl rfl) rfl)

theorem Keeps.buildStack {nodes : List NodeId} {output : Option NodeId}
    (h : ∀ c ∈ nodes ++ output.toList, L.Serves env g c) :
    L.Keeps env (buildStack g nodes output) := by
  refine .bind (.forM fun c hc => (h c (List.mem_append_left _ hc)).statement) fun _ => ?_
  cases output with
  | none => exact .pure _
  | some output => exact (h output (List.mem_append_right _ (.head _))).emit'

theorem Keeps.buildArgument {function : String} {p : Native.Parameter}
    (h : L.Serves env g id) : L.Keeps env (buildArgument g function id p) := by
  refine .ite (fun _ => ?_) fun _ => h.value _
  exact .bind h.place'.keeps fun e => .when (fun _ => .fail rfl) fun _ => .pure _

theorem Keeps.buildCall (hL : L.Straight) (bind : ∀ name, L.Keeps env (Build.bindValue id name))
    {function : FunctionId} {args : List NodeId}
    (h : ∀ c ∈ args, L.Serves env g c) : L.Keeps env (buildCall g id function args) := by
  refine .bind (.boundName? id) fun bound => ?_
  split
  · exact .pure _
  refine .bind (hL.registerFunction function) fun f => .when (fun _ => .fail rfl) fun _ => ?_
  refine .bind (hL.useFunction function) fun _ => .bind (.mapM fun a ha => ?_) fun values => ?_
  · exact .buildArgument (h a.1 (List.of_mem_zip ha).1)
  refine .ite (fun _ => .bind (.add hL (.plain rfl rfl rfl) rfl) fun _ => .pure _) fun _ => ?_
  refine .bind (.declareTemp hL _ _ _) fun name => ?_
  exact .bind (bind name) fun _ => .pure _

/-! ### All nodes -/

/-- The step that computes the value of a node, where the value is bound to a name when the node
is referred to more than once. -/
def computation? (g : Generator) (id : NodeId) : Node → Option (Build (Option Expr))
  | .texture name uv level => some (some <$> Build.buildTexture g name uv level)
  | .operator op left right => some (some <$> Build.buildOperator g op left right)
  | .unary op operand => some (Build.buildUnary g op operand)
  | .math method args => some (some <$> Build.buildMath g id method args)
  | .join parts _ => some (some <$> Build.buildJoin g id parts)
  | .convert source target => some (Build.buildConvert g source target)
  | .struct _ values => some (some <$> Build.buildStruct g id values)
  | .array element values => some (some <$> Build.buildArray g element values)
  | _ => none

theorem generateNode_computation {step : Build (Option Expr)}
    (h : computation? g id n = some step) : generateNode g id n = Build.buildTemp id step := by
  cases n <;> cases h <;> rfl

/-- What computes the value of a node keeps to what the steps of the nodes below it keep to. -/
theorem Keeps.computation (hL : L.Plain) (hi : L.Keeps env (typeOf id))
    (h : ∀ c ∈ n.children, L.Serves env g c) {step : Build (Option Expr)}
    (hc : computation? g id n = some step) : L.Keeps env step := by
  cases n with
  | texture name uv level =>
    cases hc
    exact .map _ (.buildTexture hL h)
  | operator op left right =>
    cases hc
    exact .map _ (.buildOperator (h left (.head _)) (h right (.tail _ (.head _))))
  | unary op operand =>
    cases hc
    exact .buildUnary (h operand (.head _))
  | math method args =>
    cases hc
    exact .map _ (.buildMath hi h)
  | join parts type =>
    cases hc
    exact .map _ (.buildJoin hL hi h)
  | convert source target =>
    cases hc
    exact .buildConvert (h source (.head _))
  | struct layout values =>
    cases hc
    exact .map _ (.buildStruct hL hi fun c hc => h c (.tail _ hc))
  | array element values =>
    cases hc
    exact .map _ (.buildArray hL h)
  | _ => cases hc

theorem Keeps.withoutValue {step : Build Unit} (h : L.Keeps env step) :
    L.Keeps env (withoutValue step) := .bind h fun _ => .pure _

/-- The code of a node that adds no statement of its own keeps to what the steps of the nodes
below it keep to. What gives names to values and chooses between them is taken for granted. -/
theorem Keeps.generatePlain (hL : L.Plain) (hs : n.isSpecial = false) (hp : isImpure n = false)
    (h : ∀ c ∈ n.children, L.Serves env g c)
    (temp : ∀ step, computation? g id n = some step → L.Keeps env (Build.buildTemp id step))
    (choice : ∀ condition thenNode elseNode,
      n = .conditional condition thenNode (some elseNode) →
        L.Keeps env (Build.buildConditional g id condition thenNode (some elseNode))) :
    L.Keeps env (generateNode g id n) := by
  cases hc : computation? g id n with
  | some step =>
    rw [generateNode_computation hc]
    exact temp step hc
  | none =>
    cases n with
    | const type values => exact .map _ (.buildConstant hL type values)
    | uniform name type group update value =>
      refine .bind (hL.registerUniform id name type group update value) fun u => ?_
      exact .map _ (hL.useUniform u.1 u.2)
    | meshAttribute name type => exact .map _ (.buildAttribute hL name type)
    | property name type => exact .map _ (hL.property name type)
    | builtin b => exact .map _ (hL.useBuiltin b)
    | storageBuffer name element count access =>
      exact .map _ (.buildStorage hL name element count access)
    | split source components => exact .buildSplit (h source (.head _))
    | conditional condition thenNode elseNode =>
      cases elseNode with
      | none => cases hp
      | some elseNode => exact choice _ _ _ rfl
    | loopIndex loop param => exact .map _ (.buildCounter loop param)
    | stack nodes output => exact .buildStack h
    | structType name members => exact .fail rfl
    | member base name => exact .buildMember (h base (.head _))
    | index base i => exact .buildIndex (h base (.head _)) (h i (.tail _ (.head _)))
    | remap => exact .fail rfl
    | custom => exact .fail rfl
    | assign | loop | jump | call => cases hp
    | varying | var | context | contextValue | cache => cases hs
    | _ => cases hc

/-- The code of a node keeps to what the steps of the nodes below it keep to, where conditionals
and loops are taken for granted. -/
theorem Keeps.generateStraight (hL : L.Straight) (hs : n.isSpecial = false)
    (bind : ∀ name, L.Keeps env (Build.bindValue id name)) (hi : L.Keeps env (typeOf id))
    (h : ∀ c ∈ n.children, L.Serves env g c)
    (conditional : ∀ condition thenNode elseNode, n = .conditional condition thenNode elseNode →
      L.Keeps env (Build.buildConditional g id condition thenNode elseNode))
    (loop : ∀ params body, n = .loop params body → L.Keeps env (Build.buildLoop g id params body)) :
    L.Keeps env (generateNode g id n) := by
  cases hp : isImpure n with
  | false =>
    refine .generatePlain hL.toPlain hs hp h (fun step hc => ?_) fun _ _ _ he => conditional _ _ _ he
    exact .buildTemp hL bind hi (.computation hL.toPlain hi h hc)
  | true =>
    cases n with
    | assign target value op =>
      exact .withoutValue (.buildAssign hL (h target (.head _)) (h value (.tail _ (.head _))))
    | conditional => exact conditional _ _ _ rfl
    | loop => exact .withoutValue (loop _ _ rfl)
    | jump j => exact .withoutValue (.buildJump hL j)
    | stack nodes output => exact .buildStack h
    | call function args => exact .buildCall hL bind h
    | var => cases hs
    | _ => cases hp

/-- The code of a node keeps to what the steps of the nodes below it keep to. -/
theorem Keeps.generateNested (hL : L.Nested) (hs : n.isSpecial = false)
    (bind : ∀ name, L.Keeps env (Build.bindValue id name)) (hi : L.Keeps env (typeOf id))
    (h : ∀ c ∈ n.children, L.Serves env g c) : L.Keeps env (generateNode g id n) := by
  refine .generateStraight hL.toStraight hs bind hi h ?_ ?_
  · rintro condition thenNode elseNode rfl
    exact .buildConditional hL bind hi h
  · rintro params body rfl
    exact .buildLoop hL h

/-- The code of a node keeps to what the steps of the nodes below it keep to, where each node may
be bound to a name. -/
theorem Keeps.generateNode (hL : L.Closed) (hn : env.plan.node id = .ok n)
    (hs : n.isSpecial = false) (hi : L.Keeps env (typeOf id))
    (h : ∀ c ∈ n.children, L.Serves env g c) : L.Keeps env (generateNode g id n) :=
  .generateNested hL.toNested hs (fun name => hL.bindValue name hn hs) hi h

/-- The value of a root keeps to what the code of the root keeps to. -/
theorem Keeps.generateRoot {root : NodeId} (stage : Stage)
    (h : L.Serves env (generator (Nat.pow 2 (env.plan.graph.size + 2))) root) :
    L.Keeps env (generateRoot stage root) := by
  intro s hs
  unfold Build.generateRoot depthBound
  rw [meets_bind, meets_bind, meets_read, meets_pure]
  cases stage with
  | compute =>
    refine Keeps.bind h.emit' (fun e => ?_) s hs
    exact .when (fun _ => .discard h.type') fun _ => .pure _
  | _ => exact Keeps.map _ (h.value .vec4) s hs

/-- The program of a stage keeps to what its root keeps to. -/
theorem Keeps.generateStage {root : NodeId}
    (finish : ∀ output, L.Keeps env (modifyHere fun b => { b with output := output }))
    (h : L.Serves env (generator (Nat.pow 2 (env.plan.graph.size + 2))) root) :
    L.Keeps env (generateStage root) :=
  .bind .stage fun stage => .bind (.generateRoot stage h) finish

/-- The value of a root is written down. -/
theorem Tabular.finish {deep : Prop} (h : L.Tabular deep) (output : Option Expr) :
    L.Keeps env (modifyHere fun b => { b with output := output }) :=
  h.keeps fun _ => tables_modifyHere (fun _ => rfl) fun _ => rfl

end Law

/-- The type of a node is known under the contexts around it, or it is found while the node is being
typed, and kept. -/
theorem Build.meets_typeOfIn {fuel : Nat} {env : Env} {id : NodeId} {s : BuildState}
    {ends : Failure → Prop} {post : ValueType → BuildState → Prop} (free : ∀ f, ends f)
    (known : ∀ m t, env.plan.resolve id = .ok m →
      s.types.get? (m, Frame.current env.frames) = some t → post t s)
    (new : ∀ m n, env.plan.resolve id = .ok m → env.plan.node m = .ok n →
      s.types.get? (m, Frame.current env.frames) = none →
      (m, Frame.current env.frames) ∉ env.typing →
      Meets (typeOfNode (typeOfIn fuel) m n)
        { env with typing := (m, Frame.current env.frames) :: env.typing } s (fun _ => True)
        fun t s' => post t { s' with types := s'.types.put (m, Frame.current env.frames) t }) :
    Meets (typeOfIn (fuel + 1) id) env s ends post := by
  rw [typeOfIn, meets_bind, meets_resolve]
  cases hm : env.plan.resolve id with
  | error e => exact free _
  | ok m =>
    dsimp only
    rw [meets_bind, meets_read, meets_bind, meets_get]
    cases ht : s.types.get? (m, Frame.current env.frames) with
    | some t => exact known m t hm ht
    | none =>
      dsimp only
      unfold whileTyping
      rw [meets_bind, meets_bind, meets_read, meets_ite, List.contains_iff_mem]
      refine ⟨fun _ => free _, fun apart => ?_⟩
      show Meets (withReader _ _) env s _ _
      rw [meets_withReader, meets_located, meets_bind, meets_node]
      cases hn : env.plan.node m with
      | error e => exact free _
      | ok n => exact (new m n hm hn ht apart).mono (fun _ _ => free _) fun _ _ hp => hp

/-- The code of the node that is built in the place of another is asked for in the state before it,
and the visit is logged in the state after it. -/
theorem Build.meets_emitNode {g : Generator} {env : Env} {id : NodeId} {s : BuildState}
    {ends : Failure → Prop} {post : Option Expr → BuildState → Prop} (free : ∀ f, ends f)
    (h : ∀ m n, env.plan.resolve id = .ok m → env.plan.node m = .ok n →
      Meets (generateNode g m n) env s (fun _ => True) fun code s' =>
        post code { s' with visits := visitAt env s m code :: s'.visits }) :
    Meets (emitNode g id) env s ends post := by
  unfold emitNode
  rw [meets_bind, meets_resolve]
  cases hm : env.plan.resolve id with
  | error e => exact free _
  | ok m =>
    show Meets (get >>= _) env s _ _
    rw [meets_bind, meets_get, meets_bind, meets_located, meets_bind, meets_node]
    cases hn : env.plan.node m with
    | error e => exact free _
    | ok n => exact (h m n hm hn).mono (fun _ _ => free _) fun _ _ hp => hp

end ShaderGraph
