import ShaderGraph.Proofs.Expansion
import ShaderGraph.Proofs.Traces

/-!
# Traces of failed builds

Generation reports what was met below a node, as analysis and the search for types do
(`Build.generator_descends`). So the trace of a failed build follows evaluation from the node at fault
up to the root of a stage, unless a node could not be replaced ahead of the walk: then this node is all
that is reported (`trace_of_build`).
-/

namespace ShaderGraph

/-- Generation of a node reports what was met below it. -/
structure Generator.Descends (p : Plan) (g : Generator) : Prop where
  emit : Build.Descends p g.emit
  place : Build.Descends p g.place

/-- What is asked of a node ends in errors that are reported for a situation. -/
structure Generator.Reports (p : Plan) (σ : Situation) (g : Generator) (c : NodeId) : Prop where
  type : ∀ {env}, env.Around p σ.around → Build.Reports (p.Faults σ) env (Build.typeOf c)
  emit : ∀ {env}, env.Around p σ.around → Build.Reports (p.Faults σ) env (g.emit c)
  place : ∀ {env}, env.Around p σ.around → Build.Reports (p.Faults σ) env (g.place c)
  value : ∀ {env} t, env.Around p σ.around → Build.Reports (p.Faults σ) env (g.value c t)

namespace Build

variable {α : Type} {p : Plan} {g : Generator} {env : Env} {σ : Situation} {n : Node} {id : NodeId}

/-- A step for the node of the situation itself. -/
theorem Descends.own {step : NodeId → Build α} (h : Descends p step) (he : env.Around p σ.around)
    (hr : p.resolve σ.node = .ok σ.node) : Reports (p.Faults σ) env (step σ.node) :=
  (h env σ.around σ.node he).mono fun _ below => below.own hr

/-- The value of a node reports what was met below it. -/
theorem value_descends (hg : g.Descends p) (target : ValueType) :
    Descends p fun c => g.value c target := by
  intro env around c he
  refine .resolve (unplaced_faultsBelow p around c) fun m hm => ?_
  rw [he.plan] at hm
  have hr : p.resolve m = .ok m := Plan.resolve_of_resolve hm
  have hE := unplaced_faults p ⟨m, around⟩
  refine .reporting he.plan hm (.bind (hg.emit.own he hr) fun e => ?_)
  refine .bind ((typeOf_descends p).own he hr) fun type => ?_
  split
  · exact .when (.fail hE _) fun _ => .ofExcept hE _
  · exact .fail hE _

/-- What is asked of the nodes that most nodes refer to. -/
theorem reports_child (hg : g.Descends p) (hn : p.node σ.node = .ok n) (hl : n.isLexical = false) :
    ∀ c ∈ n.children, g.Reports p σ c := fun _ hc =>
  ⟨fun he => (typeOf_descends p).child hn hl _ he hc, fun he => hg.emit.child hn hl _ he hc,
    fun he => hg.place.child hn hl _ he hc, fun t he => (value_descends hg t).child hn hl _ he hc⟩

/-- What is asked of the node of the situation itself. -/
theorem reports_own (hg : g.Descends p) (hr : p.resolve σ.node = .ok σ.node) :
    g.Reports p σ σ.node :=
  ⟨fun he => (typeOf_descends p).own he hr, fun he => hg.emit.own he hr,
    fun he => hg.place.own he hr, fun t he => (value_descends hg t).own he hr⟩

theorem values_reports {ids : List (NodeId × ValueType)} (h : ∀ v ∈ ids, g.Reports p σ v.1)
    (he : env.Around p σ.around) : Reports (p.Faults σ) env (g.values ids) :=
  .mapM fun v hv => (h v hv).value v.2 he

theorem statement_reports (h : g.Reports p σ id) (he : env.Around p σ.around) :
    Reports (p.Faults σ) env (g.statement id) := .discard (h.emit he)

/-! ### Expressions -/

theorem buildConstant_reports (type : ValueType) (values : List Float) :
    Reports (p.Faults σ) env (buildConstant type values) := by
  have hE := unplaced_faults p σ
  refine .bind (.discard (.ofExcept hE _)) fun _ => .ite (fun _ => .pure _) fun _ => ?_
  exact .bind (useType_reports hE _) fun _ => .pure _

theorem buildProperty_reports (name : String) (type : ValueType) :
    Reports (p.Faults σ) env (buildProperty name type) := by
  have hE := unplaced_faults p σ
  refine .here fun b => ?_
  split
  · exact .when (.fail hE _) fun _ => .pure _
  · refine .bind (useType_reports hE _) fun _ => .bind (claimLocal_reports _) fun _ => ?_
    exact .bind (.modifyHere _) fun _ => .pure _

theorem buildAttribute_reports (name : String) (type : Option ValueType) :
    Reports (p.Faults σ) env (buildAttribute name type) :=
  have hE := unplaced_faults p σ
  .stage (.when (.fail hE _) fun _ => useAttribute_reports hE _ _)

section Varyings

variable {source : NodeId} {name : Option String} {interpolation : Interpolation}
  {sampling : Option Sampling}

theorem writeVarying_reports {v : VaryingEntry} (h : g.Reports p σ v.source)
    (he : env.Around p σ.around)
    (hn : p.node σ.node = .ok (.varying v.source name interpolation sampling)) :
    Reports (p.Faults σ) env (writeVarying g σ.node v) := by
  have hv := he.within .vertex
  refine .ite (fun _ => .pure _) fun _ => .bind (.inStage ?_) fun _ => ?_
  · exact .bind (h.value _ hv) fun e => .bind (.modifyHere _) fun _ => .modifyHere _
  · intro s hs
    rw [he.plan] at hs ⊢
    unfold locateVarying
    rw [meets_modify]
    split
    · exact hs
    · exact hs.put hn

/-- A varying is entered with the source that its node refers to, so what is written is met below. -/
theorem buildVarying_reports (h : g.Reports p σ source) (he : env.Around p σ.around)
    (hn : p.node σ.node = .ok (.varying source name interpolation sampling)) :
    Reports (p.Faults σ) env (buildVarying g σ.node source name interpolation sampling) := by
  refine .stage (.when (.fail (unplaced_faults p σ) _) fun _ => fun s hs => ?_)
  have hn' : env.plan.node σ.node = .ok (.varying source name interpolation sampling) := he.plan ▸ hn
  have registered := registerVarying_reports (unplaced_faults p σ) (h.type he) hn' s hs
  rw [meets_bind]
  refine (registered.and (registerVarying_still hn' hs)).imp fun v s' hr => ?_
  obtain ⟨kept, -, rfl⟩ := hr
  refine Reports.bind (writeVarying_reports h he hn) (fun _ => ?_) s' kept
  exact .when (.modifyHere _) fun _ => .pure _

end Varyings

theorem buildLevel_reports {level : Option NodeId} (h : ∀ c ∈ level, g.Reports p σ c)
    (he : env.Around p σ.around) : Reports (p.Faults σ) env (buildLevel g level) := by
  cases level with
  | some c => exact .bind ((h c rfl).value _ he) fun _ => .pure _
  | none => exact .stage (.pure _)

theorem buildTexture_reports {uv : NodeId} {level : Option NodeId} (hu : g.Reports p σ uv)
    (hl : ∀ c ∈ level, g.Reports p σ c) (he : env.Around p σ.around) (name : String) :
    Reports (p.Faults σ) env (buildTexture g name uv level) :=
  .bind (hu.value _ he) fun _ => .bind (buildLevel_reports hl he) fun _ =>
    .bind (useTexture_reports name) fun _ => .pure _

theorem buildStorage_reports (name : String) (element : ValueType) (count : Option UInt32)
    (access : Access) : Reports (p.Faults σ) env (buildStorage name element count access) :=
  have hE := unplaced_faults p σ
  .bind (registerStorage_reports hE _ _ _ _) fun _ => useStorage_reports hE _ _

theorem buildOperator_reports {left right : NodeId} (hl : g.Reports p σ left)
    (hr : g.Reports p σ right) (he : env.Around p σ.around) (op : BinaryOp) :
    Reports (p.Faults σ) env (buildOperator g op left right) := by
  refine .bind (hl.type he) fun l => .bind (hr.type he) fun r => ?_
  refine .bind (.ofExcept (unplaced_faults p σ) _) fun result => .bind (hl.value _ he) fun _ => ?_
  exact .bind (hr.value _ he) fun _ => .ite (fun _ => .pure _) fun _ => .pure _

theorem buildUnary_reports {operand : NodeId} (h : g.Reports p σ operand)
    (he : env.Around p σ.around) (op : UnaryOp) :
    Reports (p.Faults σ) env (buildUnary g op operand) := by
  refine .bind (h.type he) fun _ => .bind (.discard (.ofExcept (unplaced_faults p σ) _)) fun _ => ?_
  exact .bind (h.emit he) fun _ => .pure _

theorem buildMath_reports {args : List NodeId} (own : g.Reports p σ σ.node)
    (h : ∀ c ∈ args, g.Reports p σ c) (he : env.Around p σ.around) (m : MathMethod) :
    Reports (p.Faults σ) env (buildMath g σ.node m args) := by
  have hE := unplaced_faults p σ
  refine .stage (.when (.fail hE _) fun _ => .bind (own.type he) fun _ => ?_)
  refine .bind (.mapM fun c hc => (h c hc).type he) fun _ => .bind (.ofExcept hE _) fun targets => ?_
  refine .bind (values_reports ?_ he) fun _ => .pure _
  exact fun v hv => h _ (List.of_mem_zip hv).1

theorem buildSplit_reports {source : NodeId} (h : g.Reports p σ source)
    (he : env.Around p σ.around) (components : String) :
    Reports (p.Faults σ) env (buildSplit g source components) := by
  have hE := unplaced_faults p σ
  refine .bind (h.type he) fun _ => .bind (.discard (.ofExcept hE _)) fun _ => ?_
  exact .bind (.ofExcept hE _) fun _ => .bind (h.emit he) fun _ => .pure _

theorem buildJoin_reports {parts : List NodeId} (own : g.Reports p σ σ.node)
    (h : ∀ c ∈ parts, g.Reports p σ c) (he : env.Around p σ.around) :
    Reports (p.Faults σ) env (buildJoin g σ.node parts) := by
  refine .bind (own.type he) fun type => .bind (.mapM fun c hc => ?_) fun _ => ?_
  · exact .bind ((h c hc).type he) fun _ => (h c hc).value _ he
  · exact .bind (useType_reports (unplaced_faults p σ) _) fun _ => .pure _

theorem buildConvert_reports {source : NodeId} (h : g.Reports p σ source)
    (he : env.Around p σ.around) (target : ValueType) :
    Reports (p.Faults σ) env (buildConvert g source target) := by
  have hE := unplaced_faults p σ
  refine .bind (h.type he) fun type => .bind (h.emit he) fun e => ?_
  split
  · exact .bind (.ofExcept hE _) fun _ => .pure _
  · exact .when (.fail hE _) fun _ => .pure _

theorem buildStruct_reports {values : List NodeId} (own : g.Reports p σ σ.node)
    (h : ∀ c ∈ values, g.Reports p σ c) (he : env.Around p σ.around) :
    Reports (p.Faults σ) env (buildStruct g σ.node values) := by
  have hE := unplaced_faults p σ
  refine .bind (own.type he) fun type => .bind (.structMembers hE _) fun members => ?_
  refine .when (.fail hE _) fun _ => .bind (values_reports ?_ he) fun _ => ?_
  · exact fun v hv => h _ (List.of_mem_zip hv).1
  · exact .bind (useType_reports hE _) fun _ => .pure _

theorem buildArray_reports {values : List NodeId} (h : ∀ c ∈ values, g.Reports p σ c)
    (he : env.Around p σ.around) (element : ValueType) :
    Reports (p.Faults σ) env (buildArray g element values) := by
  have hE := unplaced_faults p σ
  refine .bind (.ofExcept hE _) fun type => .bind (values_reports ?_ he) fun _ => ?_
  · intro v hv
    obtain ⟨c, hc, rfl⟩ := List.mem_map.1 hv
    exact h c hc
  · exact .bind (useType_reports hE _) fun _ => .pure _

theorem buildMember_reports {base : NodeId} (h : g.Reports p σ base) (he : env.Around p σ.around)
    (name : String) : Reports (p.Faults σ) env (buildMember g base name) := by
  refine .bind (h.type he) fun _ => .bind (.discard ?_) fun _ => .bind (h.emit he) fun _ => .pure _
  exact memberType_reports (unplaced_faults p σ) _ _

theorem checkIndex_reports (base : ValueType) (i : NodeId) :
    Reports (p.Faults σ) env (checkIndex base i) := by
  have hE := unplaced_faults p σ
  refine .resolve hE fun m _ => .node hE fun n _ => ?_
  split
  · exact .ite (fun _ => .fail hE _) fun _ => .pure _
  · exact .pure _

theorem buildElement_reports {base : Option Expr} {source i : NodeId} (hs : g.Reports p σ source)
    (hi : g.Reports p σ i) (he : env.Around p σ.around) :
    Reports (p.Faults σ) env (buildElement g base source i) := by
  refine .bind (hs.type he) fun _ => .bind (hi.type he) fun _ => .bind (.discard ?_) fun _ => ?_
  · exact elementType_reports (unplaced_faults p σ) _ _
  · exact .bind (checkIndex_reports _ _) fun _ => .bind (hi.value _ he) fun _ => .pure _

theorem buildIndex_reports {base i : NodeId} (hb : g.Reports p σ base) (hi : g.Reports p σ i)
    (he : env.Around p σ.around) : Reports (p.Faults σ) env (buildIndex g base i) :=
  .bind (hb.emit he) fun _ => buildElement_reports hb hi he

/-! ### Places -/

theorem placeBase_reports {base : NodeId} (h : g.Reports p σ base) (he : env.Around p σ.around) :
    Reports (p.Faults σ) env (placeBase g base) := by
  have hE := unplaced_faults p σ
  refine .resolve hE fun m _ => .node hE fun n _ => ?_
  split
  · refine .bind (registerStorage_reports hE _ _ _ _) fun b => ?_
    exact .bind (useStorage_reports hE _ b) fun _ => .when (.fail hE _) fun _ => .pure _
  · exact .bind (h.place he) fun _ => .pure _

/-- The place of a node reports what was met below it. -/
theorem placeOf_reports (hg : g.Descends p) (he : env.Around p σ.around)
    (hr : p.resolve σ.node = .ok σ.node) (hn : p.node σ.node = .ok n) (type : ValueType) :
    Reports (p.Faults σ) env (placeOf g σ.node type n) := by
  have hE := unplaced_faults p σ
  have child := reports_child hg hn
  have emitted : ∀ {next : Option Expr → Build Expr},
      (∀ e, Reports (p.Faults σ) env (next (some e))) → Reports (p.Faults σ) env (next none) →
        Reports (p.Faults σ) env (g.emit σ.node >>= next) := by
    intro next code none
    refine .bind ((reports_own hg hr).emit he) fun e => ?_
    cases e with
    | some e => exact code e
    | none => exact none
  cases n with
  | var value name readOnly =>
    cases readOnly with
    | true => exact .fail hE _
    | false => exact emitted (fun _ => .pure _) (.fail hE _)
  | property => exact emitted (fun _ => .pure _) (.fail hE _)
  | member base name => exact .bind ((child rfl _ (.head _)).place he) fun _ => .pure _
  | index base i =>
    have below := child rfl base (.head _)
    refine .bind (placeBase_reports below he) fun e => ?_
    refine .bind (buildElement_reports below (child rfl _ (.tail _ (.head _))) he) fun e => ?_
    cases e with
    | some e => exact .pure _
    | none => exact .fail hE _
  | split base components =>
    have chosen := Reports.bind ((child rfl base (.head _)).place he) fun place =>
      Reports.bind (.ofExcept hE (Swizzle.read components place.2.components)) fun cs =>
        .pure (Expr.swizzle place.1 cs)
    refine .dialect (.ite (fun _ => ?_) fun _ => chosen)
    exact .dialect (.bind (.fail hE _) fun _ => chosen)
  | _ => exact .fail hE _

/-! ### Variables and assignments -/

theorem mutability_reports (value : NodeId) (readOnly : Bool) :
    Reports (p.Faults σ) env (mutability value readOnly) := by
  have hE := unplaced_faults p σ
  refine .ite (fun _ => .pure _) fun _ => .resolve hE fun m _ => .node hE fun n _ => ?_
  split <;> exact .pure _

theorem declareVariable_reports (id value : NodeId) (readOnly : Bool) (name : String)
    (type : ValueType) (init : Expr) :
    Reports (p.Faults σ) env (declareVariable id value readOnly name type init) := by
  refine .bind (mutability_reports _ _) fun m => .bind (fun _ h => h) fun key => ?_
  exact .bind (.modifyHere _) fun _ => bindName_reports _ _ _

theorem prepareVariable_reports {value : NodeId} (own : g.Reports p σ σ.node)
    (h : g.Reports p σ value) (he : env.Around p σ.around) (name : Option String) :
    Reports (p.Faults σ) env (prepareVariable g σ.node value name) := by
  refine .bind (own.type he) fun type => .bind (h.value _ he) fun init => ?_
  refine .bind (useType_reports (unplaced_faults p σ) _) fun _ => ?_
  cases name with
  | some name => exact .bind (claimLocal_reports _) fun _ => .pure _
  | none => exact .bind claimTemp_reports fun _ => .pure _

theorem buildVariable_reports {value : NodeId} (own : g.Reports p σ σ.node)
    (h : g.Reports p σ value) (he : env.Around p σ.around) (name : Option String)
    (readOnly : Bool) : Reports (p.Faults σ) env (buildVariable g σ.node value name readOnly) := by
  refine .bind (boundName?_reports _) fun bound => ?_
  cases bound with
  | some name => exact .pure _
  | none =>
    refine .bind (prepareVariable_reports own h he name) fun v => ?_
    exact .bind (declareVariable_reports _ _ _ _ _ _) fun _ => .pure _

theorem buildUpdate_reports {value : NodeId} (h : g.Reports p σ value) (he : env.Around p σ.around)
    (place : Expr) (type : ValueType) (op : BinaryOp) :
    Reports (p.Faults σ) env (buildUpdate g place type op value) := by
  have hE := unplaced_faults p σ
  refine .bind (h.type he) fun t => .bind (.ofExcept hE _) fun result => .when (.fail hE _) fun _ => ?_
  exact .bind (h.value _ he) fun _ => .ite (fun _ => .pure _) fun _ => .pure _

theorem buildAssign_reports {target value : NodeId} (ht : g.Reports p σ target)
    (hv : g.Reports p σ value) (he : env.Around p σ.around) (op : Option BinaryOp) :
    Reports (p.Faults σ) env (buildAssign g target value op) := by
  refine .bind (ht.place he) fun place => ?_
  cases op with
  | none => exact .bind (.bind (hv.value _ he) fun _ => .pure _) fun _ => .modifyHere _
  | some op => exact .bind (buildUpdate_reports hv he _ _ op) fun _ => .modifyHere _

/-! ### Values that are bound -/

theorem buildTemp_reports (own : g.Reports p σ σ.node) (he : env.Around p σ.around)
    {step : Build (Option Expr)} (h : Reports (p.Faults σ) env step) :
    Reports (p.Faults σ) env (buildTemp σ.node step) := by
  refine .bind (boundName?_reports _) fun bound => ?_
  cases bound with
  | some name => exact .pure _
  | none =>
    refine .bind h fun e => .bind (own.type he) fun type => ?_
    cases e with
    | none => exact .pure _
    | some e =>
      refine .bind (usage_reports _) fun count => .ite (fun _ => .pure _) fun _ => ?_
      refine .bind (declareTemp_reports (unplaced_faults p σ) _ _ _) fun name => ?_
      exact .bind (bindValue_reports _ _) fun _ => .pure _

/-! ### Conditionals -/

theorem buildBranch_reports (h : g.Reports p σ id) (he : env.Around p σ.around) (result : String)
    (type : ValueType) : Reports (p.Faults σ) env (buildBranch g result type id) :=
  inBlock_reports (.bind (h.value _ he) fun _ => .modifyHere _)

theorem buildChoice_reports {thenNode elseNode : NodeId} (own : g.Reports p σ σ.node)
    (ht : g.Reports p σ thenNode) (hf : g.Reports p σ elseNode) (he : env.Around p σ.around)
    (type : ValueType) (condition : Expr) :
    Reports (p.Faults σ) env (buildChoice g σ.node type condition thenNode elseNode) := by
  have hE := unplaced_faults p σ
  refine .bind (.read (.ofExcept hE _)) fun pure => .ite (fun _ => ?_) fun _ => ?_
  · refine buildTemp_reports own he (.bind (ht.value _ he) fun _ => ?_)
    exact .bind (hf.value _ he) fun _ => .pure _
  · refine .bind (declareTemp_reports hE _ _ _) fun result => ?_
    refine .bind (buildBranch_reports ht he _ _) fun _ => .bind (buildBranch_reports hf he _ _) fun _ => ?_
    exact .bind (.modifyHere _) fun _ => .bind (bindValue_reports _ _) fun _ => .pure _

theorem buildConditional_reports {condition thenNode : NodeId} {elseNode : Option NodeId}
    (own : g.Reports p σ σ.node) (hc : g.Reports p σ condition) (ht : g.Reports p σ thenNode)
    (hf : ∀ c ∈ elseNode, g.Reports p σ c) (he : env.Around p σ.around) :
    Reports (p.Faults σ) env (buildConditional g σ.node condition thenNode elseNode) := by
  have block : ∀ {c}, g.Reports p σ c → Reports (p.Faults σ) env (inBlock (g.statement c)) :=
    fun h => inBlock_reports (statement_reports h he)
  refine .bind (boundName?_reports _) fun bound => ?_
  cases bound with
  | some name => exact .pure _
  | none =>
    refine .bind (own.type he) fun type => .bind (hc.value _ he) fun condition => ?_
    cases elseNode with
    | none => exact .bind (block ht) fun _ => .bind (.modifyHere _) fun _ => .pure _
    | some c =>
      have choice := buildChoice_reports own ht (hf c rfl) he type condition
      refine .ite (fun _ => ?_) fun _ => choice
      refine .bind (block ht) fun _ => .bind (block (hf c rfl)) fun _ => ?_
      exact .bind (.modifyHere _) fun _ => .pure _

/-! ### Loops -/

theorem buildBound_reports {b : LoopBound NodeId} (h : ∀ c, b = .node c → g.Reports p σ c)
    (he : env.Around p σ.around) (type : ValueType) (kind : ScalarKind) :
    Reports (p.Faults σ) env (buildBound g type kind b) := by
  cases b with
  | value v => exact .pure _
  | node c => exact (h c rfl).value _ he

theorem buildLevels_reports {body : Option NodeId} (hb : ∀ c ∈ body, g.Reports p σ c)
    (id : NodeId) (level : Nat) (params : List (LoopParam NodeId))
    (h : ∀ c ∈ params.flatMap LoopParam.children, g.Reports p σ c) (he : env.Around p σ.around) :
    Reports (p.Faults σ) env (buildLevels g id body level params) := by
  have hE := unplaced_faults p σ
  induction params generalizing env level with
  | nil =>
    cases body with
    | none => exact .pure _
    | some c => exact statement_reports (hb c rfl) he
  | cons q rest ih =>
    rw [List.flatMap_cons, List.forall_mem_append] at h
    have start : ∀ c, q.start = .node c → g.Reports p σ c := by
      intro c hc
      exact h.1 c (by rw [LoopParam.children, hc]; exact .head _)
    have stop : ∀ c, q.stop = .node c → g.Reports p σ c := by
      intro c hc
      exact h.1 c (by rw [LoopParam.children, hc]; exact List.mem_append_right _ (.head _))
    refine .bind (.ofExcept hE _) fun checked => .read (.bind (claimLocal_reports _) fun counter => ?_)
    refine .bind (useType_reports hE _) fun _ => .bind (buildBound_reports start he _ _) fun _ => ?_
    refine .bind (buildBound_reports stop he _ _) fun _ => .bind (.withReader ?_ rfl) fun inner => ?_
    · exact inBlock_reports (ih _ h.2 ⟨he.plan, he.frames⟩)
    · exact .bind (.modifyHere _) fun _ => .modifyHere _

theorem buildLoop_reports {params : List (LoopParam NodeId)} {body : Option NodeId}
    (hb : ∀ c ∈ body, g.Reports p σ c)
    (h : ∀ c ∈ params.flatMap LoopParam.children, g.Reports p σ c) (he : env.Around p σ.around)
    (id : NodeId) : Reports (p.Faults σ) env (buildLoop g id params body) :=
  .when (.fail (unplaced_faults p σ) _) fun _ => buildLevels_reports hb id 0 params h he

theorem buildCounter_reports (loop : NodeId) (param : Nat) :
    Reports (p.Faults σ) env (buildCounter loop param) := by
  have hE := unplaced_faults p σ
  refine .resolve hE fun m _ => .read ?_
  split
  · exact .pure _
  · exact .fail hE _

theorem buildJump_reports (j : Jump) : Reports (p.Faults σ) env (buildJump j) :=
  .read (.when (.fail (unplaced_faults p σ) _) fun _ => .modifyHere _)

theorem buildStack_reports {nodes : List NodeId} {output : Option NodeId}
    (h : ∀ c ∈ nodes, g.Reports p σ c) (ho : ∀ c ∈ output, g.Reports p σ c)
    (he : env.Around p σ.around) : Reports (p.Faults σ) env (buildStack g nodes output) := by
  refine .bind (.forM fun c hc => statement_reports (h c hc) he) fun _ => ?_
  cases output with
  | some c => exact (ho c rfl).emit he
  | none => exact .pure _

/-! ### Calls -/

theorem buildArgument_reports {arg : NodeId} (h : g.Reports p σ arg) (he : env.Around p σ.around)
    (function : String) (q : Native.Parameter) :
    Reports (p.Faults σ) env (buildArgument g function arg q) := by
  refine .ite (fun _ => .bind (h.place he) fun place => ?_) fun _ => h.value _ he
  exact .when (.fail (unplaced_faults p σ) _) fun _ => .pure _

theorem buildCall_reports {args : List NodeId} (h : ∀ c ∈ args, g.Reports p σ c)
    (he : env.Around p σ.around) (id : NodeId) (function : FunctionId) :
    Reports (p.Faults σ) env (buildCall g id function args) := by
  have hE := unplaced_faults p σ
  refine .bind (boundName?_reports _) fun bound => ?_
  cases bound with
  | some name => exact .pure _
  | none =>
    refine .bind (registerFunction_reports hE _) fun f => .when (.fail hE _) fun _ => ?_
    refine .bind (useFunction_reports hE _) fun _ => .bind (.mapM fun a ha => ?_) fun values => ?_
    · exact buildArgument_reports (h _ (List.of_mem_zip ha).1) he _ _
    refine .ite (fun _ => .bind (.modifyHere _) fun _ => .pure _) fun _ => ?_
    exact .bind (declareTemp_reports hE _ _ _) fun _ => .bind (bindValue_reports _ _) fun _ => .pure _

/-! ### Nodes -/

/-- Generation of a node reports what was met below it. -/
theorem generateNode_reports (hg : g.Descends p) (he : env.Around p σ.around)
    (hr : p.resolve σ.node = .ok σ.node) (hn : p.node σ.node = .ok n) :
    Reports (p.Faults σ) env (generateNode g σ.node n) := by
  have hE := unplaced_faults p σ
  have own := reports_own hg hr
  have child := reports_child hg hn
  have last : ∀ {c : NodeId} {cs : List NodeId} {o : Option NodeId}, c ∈ o → c ∈ cs ++ o.toList :=
    fun hc => List.mem_append_right _ (Option.mem_toList.2 hc)
  cases n with
  | const type values => exact .map _ (buildConstant_reports _ _)
  | uniform name type group update value =>
    exact .bind (registerUniform_reports hE _ _ _ _ _ _) fun u => .map _ (useUniform_reports _ _)
  | meshAttribute name type => exact .map _ (buildAttribute_reports _ _)
  | varying source name interpolation sampling =>
    exact .map _ (buildVarying_reports (child rfl _ (.head _)) he hn)
  | property name type => exact .map _ (buildProperty_reports _ _)
  | builtin b => exact .map _ (useBuiltin_reports hE b)
  | texture name uv level =>
    refine buildTemp_reports own he (.map _ (buildTexture_reports (child rfl _ (.head _)) ?_ he name))
    exact fun c hc => child rfl c (.tail _ (Option.mem_toList.2 hc))
  | storageBuffer name element count access => exact .map _ (buildStorage_reports _ _ _ _)
  | var value name readOnly =>
    exact .map _ (buildVariable_reports own (child rfl _ (.head _)) he _ _)
  | assign target value op =>
    refine .bind (buildAssign_reports (child rfl _ (.head _)) ?_ he op) fun _ => .pure _
    exact child rfl _ (.tail _ (.head _))
  | operator op left right =>
    refine buildTemp_reports own he (.map _ (buildOperator_reports (child rfl _ (.head _)) ?_ he op))
    exact child rfl _ (.tail _ (.head _))
  | unary op operand =>
    exact buildTemp_reports own he (buildUnary_reports (child rfl _ (.head _)) he op)
  | math method args =>
    exact buildTemp_reports own he (.map _ (buildMath_reports own (child rfl) he method))
  | split source components => exact buildSplit_reports (child rfl _ (.head _)) he components
  | join parts explicit =>
    exact buildTemp_reports own he (.map _ (buildJoin_reports own (child rfl) he))
  | convert source target =>
    exact buildTemp_reports own he (buildConvert_reports (child rfl _ (.head _)) he target)
  | conditional condition thenNode elseNode =>
    refine buildConditional_reports own (child rfl _ (.head _)) (child rfl _ (.tail _ (.head _))) ?_ he
    exact fun c hc => child rfl c (.tail _ (.tail _ (Option.mem_toList.2 hc)))
  | loop params body =>
    refine .bind (buildLoop_reports (fun c hc => child rfl c (last hc)) ?_ he _) fun _ => .pure _
    exact fun c hc => child rfl c (List.mem_append_left _ hc)
  | loopIndex loop param => exact .map _ (buildCounter_reports _ _)
  | jump j => exact .bind (buildJump_reports j) fun _ => .pure _
  | stack nodes output =>
    refine buildStack_reports (fun c hc => child rfl c (List.mem_append_left _ hc)) ?_ he
    exact fun c hc => child rfl c (last hc)
  | struct layout values =>
    refine buildTemp_reports own he (.map _ (buildStruct_reports own ?_ he))
    exact fun c hc => child rfl c (.tail _ hc)
  | array element values =>
    exact buildTemp_reports own he (.map _ (buildArray_reports (child rfl) he element))
  | member base name => exact buildMember_reports (child rfl _ (.head _)) he name
  | index base i => exact buildIndex_reports (child rfl _ (.head _)) (child rfl _ (.tail _ (.head _))) he
  | context inner values => exact hg.emit.inContext hn he
  | contextValue key fallback => exact hg.emit.withContextValue hn he
  | cache inner shares =>
    refine .bind (.read (.modifyGet fun _ => rfl)) fun scope => .inScope ?_
    exact hg.emit.child hn rfl { env with scope := scope } ⟨he.plan, he.frames⟩ (.head _)
  | call function args => exact buildCall_reports (child rfl) he _ function
  | structType | remap | custom => exact .fail hE _

/-- The code of a node is generated for the node itself and reported with it. -/
theorem emitNode_descends (hg : g.Descends p) : Descends p (emitNode g) := by
  intro env around c he
  refine .resolve (unplaced_faultsBelow p around c) fun m hm => .get fun before => ?_
  rw [he.plan] at hm
  refine .bind (.reporting he.plan hm (.node (unplaced_faults p _) fun n hn => ?_)) fun code => ?_
  · rw [he.plan] at hn
    exact generateNode_reports (σ := ⟨m, around⟩) hg he (Plan.resolve_of_resolve hm) hn
  · exact .bind (.read (.modify fun _ => rfl)) fun _ => .pure _

theorem buildPlace_descends (hg : g.Descends p) : Descends p (buildPlace g) := by
  intro env around c he
  refine .resolve (unplaced_faultsBelow p around c) fun m hm => ?_
  rw [he.plan] at hm
  have hr : p.resolve m = .ok m := Plan.resolve_of_resolve hm
  refine .reporting he.plan hm (.node (unplaced_faults p _) fun n hn => ?_)
  rw [he.plan] at hn
  refine .bind ((typeOf_descends p).own (σ := ⟨m, around⟩) he hr) fun type => ?_
  exact .bind (placeOf_reports (σ := ⟨m, around⟩) hg he hr hn type) fun e => .pure _

theorem generator_descends (p : Plan) (fuel : Nat) : (generator fuel).Descends p := by
  induction fuel with
  | zero => exact ⟨fun _ _ _ _ => .exhaust, fun _ _ _ _ => .exhaust⟩
  | succ fuel ih => exact ⟨emitNode_descends ih, buildPlace_descends ih⟩

/-! ### Runs -/

theorem generateRoot_reports (stage : Stage) (root : NodeId) (he : env.Around p []) :
    Reports (p.FaultsBelow [] root) env (generateRoot stage root) := by
  have hg : ∀ fuel, (generator fuel).Descends p := generator_descends p
  refine .bind (.read (.pure _)) fun fuel => ?_
  cases stage with
  | vertex | fragment => exact .map _ (value_descends (hg fuel) _ env [] root he)
  | compute =>
    refine .bind ((hg fuel).emit env [] root he) fun e => .when (.discard ?_) fun _ => .pure _
    exact typeOf_descends p env [] root he

theorem generateStage_descends (root : NodeId) (he : env.Around p []) :
    Reports (p.FaultsBelow [] root) env (generateStage root) :=
  .stage (.bind (generateRoot_reports _ root he) fun _ => .modifyHere _)

/-- A step for each root reports what was met below the root. -/
theorem atRoots_reports (active : List Stage) {step : NodeId → Build Unit}
    (h : ∀ env root, env.Around p [] → Reports (p.FaultsBelow [] root) env (step root))
    (rs : List (Stage × NodeId)) {s : BuildState} (hv : VaryingsFrom p s.varyings) :
    match atRoots p active step rs s with
    | .ok s' => VaryingsFrom p s'.varyings
    | .error (.refused e) => ∃ r ∈ rs, p.FaultsBelow [] r.2 e
    | .error .exhausted => True := by
  induction rs generalizing s with
  | nil => exact hv
  | cons r rest ih =>
    obtain ⟨stage, root⟩ := r
    rw [atRoots, atRoot]
    have first := h _ root (.root p active stage) s hv
    cases hs : step root (Env.root p active stage) s with
    | ok out =>
      have others := ih (first.post hs)
      dsimp only
      split at others
      · exact others
      · obtain ⟨r, hr, below⟩ := others
        exact ⟨r, .tail _ hr, below⟩
      · trivial
    | error f =>
      have below := first.failure hs
      cases f with
      | refused e => exact ⟨_, .head _, below⟩
      | exhausted => trivial

/-- A run is refused for something that was met below a root. -/
theorem run_reports {rs : List (Stage × NodeId)} {e : BuildError}
    (h : run p rs = .error (.refused e)) : ∃ r ∈ rs, p.FaultsBelow [] r.2 e := by
  have start : VaryingsFrom p (BuildState.start p).varyings := fun _ _ hv => nomatch hv
  have analyzed := atRoots_reports (rs.map Prod.fst)
    (fun env root he => analyze_descends p env [] root he) rs start
  unfold run at h
  dsimp only at h
  split at h
  · next s hs =>
    rw [hs] at analyzed
    have generated := atRoots_reports (rs.map Prod.fst)
      (fun _ root he => generateStage_descends root he) rs analyzed
    rw [h] at generated
    exact generated
  · next f hf =>
    cases h
    rw [hf] at analyzed
    exact analyzed

end Build

/-! ### Nodes that cannot be replaced -/

/-- A refusal says by itself where it arose. -/
def Refusal.IsPlaced (r : Refusal) : Prop := r.node ≠ none ∨ r.trace ≠ []

/-- What a description refuses has no places of its own. -/
theorem Custom.setup_not_placed {c : Custom} {g : Graph} {r : Refusal}
    (h : (Custom.setup c g).1 = .error r) : ¬r.IsPlaced := by
  unfold Custom.setup at h
  split at h
  · cases h
    rintro (h | h) <;> exact h rfl
  · cases h
  · cases h

namespace Plan

variable {p q : Plan} {id : NodeId} {roots : List NodeId} {e cause : BuildError}

/-- A node that stands for nothing is refused by the build, or by the setup of a custom node. -/
theorem of_addExpansion_error (h : p.addExpansion id = (.error cause, q)) :
    (∃ c, cause = .ofCause c) ∨ ∃ c r, p.graph.get? id = some (.custom c) ∧
      (p.host.setup c p.graph).1 = .error r ∧ cause = r.error := by
  have target : ∀ {g id t}, checkTarget g id t = .error cause → ∃ c, cause = .ofCause c := by
    intro g id t ht
    unfold checkTarget at ht
    split at ht
    · cases ht
      exact ⟨_, rfl⟩
    · split at ht
      · cases ht
        exact ⟨_, rfl⟩
      · cases ht
  unfold addExpansion at h
  split at h
  · exact .inl (target (congrArg Prod.fst h))
  · next c hc =>
    have refused := congrArg Prod.fst h
    dsimp only at refused
    cases hr : (p.host.setup c p.graph).1 with
    | error r =>
      rw [hr] at refused
      cases refused
      exact .inr ⟨c, r, hc, hr, rfl⟩
    | ok t =>
      rw [hr] at refused
      exact .inl (target refused)
  · cases h
  · cases h
    exact .inl ⟨_, rfl⟩

/-- Where nodes cannot be replaced, those before one of them were. -/
theorem of_replaceNodes_error {ids : List NodeId} (h : p.replaceNodes ids = .error e) :
    ∃ before id after q q' cause, ids = before ++ id :: after ∧ p.replaceNodes before = .ok q ∧
      q.addExpansion id = (.error cause, q') ∧ e = cause.located (q'.location id) .vertex := by
  induction ids generalizing p with
  | nil => cases h
  | cons id rest ih =>
    rw [replaceNodes] at h
    split at h
    · next hr =>
      cases h
      unfold replaceNode at hr
      split at hr
      · cases hr
      · next cause q' ha =>
        cases hr
        exact ⟨[], id, rest, p, q', cause, rfl, rfl, ha, rfl⟩
    · next p' hr =>
      obtain ⟨before, id', after, q, q', cause, rfl, done, ha, he⟩ := ih h
      refine ⟨id :: before, id', after, q, q', cause, rfl, ?_, ha, he⟩
      rw [replaceNodes, hr]
      exact done

/-- What is found by the search for nodes to be replaced is to be replaced. -/
theorem expandable_of_pendingFrom {fuel : Nat} {ids visited pending found : List NodeId}
    (h : p.pendingFrom fuel ids visited pending = .ok found) (hid : id ∈ found) :
    id ∈ pending ∨ ∃ n, p.node id = .ok n ∧ n.isExpandable = true := by
  induction fuel generalizing ids visited pending with
  | zero => cases ids <;> cases h <;> exact .inl hid
  | succ fuel ih =>
    cases ids with
    | nil =>
      cases h
      exact .inl hid
    | cons c rest =>
      rw [pendingFrom] at h
      split at h
      · cases h
      · next m hm =>
        split at h
        · exact ih h
        · split at h
          · cases h
          · next n hn =>
            split at h
            · next hx =>
              rcases ih h with hp | hn'
              · rcases List.mem_append.1 hp with hp | hp
                · exact .inl hp
                · rw [List.mem_singleton.1 hp]
                  exact .inr ⟨n, hn, hx⟩
              · exact .inr hn'
            · exact ih h

theorem replaceNodes_host {ids : List NodeId} (h : p.replaceNodes ids = .ok q) :
    q.host = p.host := by
  refine replaceNodes_keeps (P := fun q => q.host = p.host) (fun {r r' id target} hr ha => ?_)
    (fun _ hr => hr) h rfl
  have same := (addExpansion_settings r id).2
  rw [ha] at same
  exact same.trans hr

/-- The plans between the rounds in which nodes are replaced. -/
inductive Round (g : Graph) (options : BuildOptions) (host : Host) (roots : List NodeId) :
    Plan → Prop
  | start : Round g options host roots (ofGraph g options host)
  | next {p q : Plan} {ids : List NodeId} : Round g options host roots p →
      p.pending roots = .ok ids → p.replaceNodes ids = .ok q → Round g options host roots q

theorem Round.host {g : Graph} {options : BuildOptions} {host : Host}
    (h : Round g options host roots p) : p.host = host := by
  induction h with
  | start => rfl
  | next _ _ hr ih => exact (replaceNodes_host hr).trans ih

/-- In some round, which starts with the plan `p`, the node `id` cannot be replaced when it is its
turn with the plan `q`. The plan `q'` is the one after that. -/
structure Blocked (g : Graph) (options : BuildOptions) (host : Host) (roots : List NodeId)
    (p q q' : Plan) (id : NodeId) (cause e : BuildError) : Prop where
  round : Round g options host roots p
  turn : ∃ before after, p.pending roots = .ok (before ++ id :: after) ∧
    p.replaceNodes before = .ok q
  expandable : ∃ n, p.node id = .ok n ∧ n.isExpandable = true
  host : q.host = host
  refused : q.addExpansion id = (.error cause, q')
  located : e = cause.located (q'.location id) .vertex

/-- An error without places reports the node that cannot be replaced, and it alone. -/
theorem Blocked.alone {g : Graph} {options : BuildOptions} {host : Host} {p q q' : Plan}
    (h : Blocked g options host roots p q q' id cause e) (hn : cause.node = none)
    (ht : cause.trace = []) :
    e.node = some (q'.location id) ∧ e.trace = [q'.location id] := by
  rw [h.located, BuildError.node_located, BuildError.trace_located, hn, ht]
  exact ⟨rfl, rfl⟩

theorem Round.blocked {g : Graph} {options : BuildOptions} {host : Host}
    (hp : Round g options host roots p) {rounds : Nat} (h : expandIn roots rounds p = .error e)
    (ht : e.trace ≠ []) :
    ∃ p q q' id cause, Blocked g options host roots p q q' id cause e := by
  induction rounds generalizing p with
  | zero =>
    unfold expandIn at h
    split at h
    · cases h
      exact absurd rfl ht
    · cases h
    · cases h
      exact absurd rfl ht
  | succ rounds ih =>
    unfold expandIn at h
    split at h
    · cases h
      exact absurd rfl ht
    · cases h
    · next ids _ hids =>
      dsimp only at h
      split at h
      · next e' hr =>
        cases h
        obtain ⟨before, id, after, q, q', cause, rfl, done, refused, located⟩ :=
          of_replaceNodes_error hr
        have found : id ∈ before ++ id :: after := List.mem_append_right _ (.head _)
        have expandable := (expandable_of_pendingFrom hids found).resolve_left List.not_mem_nil
        exact ⟨p, q, q', id, cause, hp, ⟨before, after, hids, done⟩, expandable,
          (replaceNodes_host done).trans hp.host, refused, located⟩
      · next q hr => exact ih (hp.next hids hr) h

/-- A plan is refused with a place only where a node cannot be replaced. -/
theorem blocked_of_make {g : Graph} {options : BuildOptions} {host : Host}
    (h : make g options roots host = .error e) (ht : e.trace ≠ []) :
    ∃ p q q' id cause, Blocked g options host roots p q q' id cause e := by
  unfold make at h
  split at h
  · next he =>
    cases h
    exact Round.start.blocked he ht
  · unfold collectStructs at h
    dsimp only at h
    split at h
    · cases h
      exact absurd rfl ht
    · cases h

end Plan

/-! ### Builds -/

/-- When an artifact is put together, what is refused has no places. -/
theorem BuildState.trace_of_artifact {s : BuildState} {p : Plan} {active : List Stage}
    {e : BuildError} (h : s.artifact p active = .error e) : e.trace = [] := by
  rcases bind_error h with hs | ⟨programs, -, h⟩
  · obtain ⟨stage, -, hs⟩ := mapM_error hs
    unfold checkedProgram at hs
    split at hs
    · cases hs
      rfl
    · dsimp only at hs
      split at hs
      · split at hs
        · cases hs
        · cases hs
          rfl
      · cases hs
  · cases h

variable {g : Graph} {request : BuildRequest} {options : BuildOptions} {host : Host}

/-- The places that a refused build reports, as far as it reports any. Either a setup says by itself
where its refusal arose. Or a node below the roots could not be replaced before the walk, and this
node is the only place. Or the places are those of a path of evaluation steps, the innermost first,
that leads back to the root of a stage: each is another one than the place before it, and evaluated
from it. -/
theorem trace_of_build {e : BuildError} (h : build g request options host = .error (.refused e))
    (ht : e.trace ≠ []) :
    (∃ p q q' id c r,
      Plan.Blocked g options host (request.roots.map Prod.snd) p q q' id (Refusal.error r) e ∧
        q.graph.get? id = some (.custom c) ∧ (host.setup c q.graph).1 = .error r ∧ r.IsPlaced) ∨
    e.node = e.trace.head? ∧
      ((Plan.make g options (request.roots.map Prod.snd) host = .error e ∧
          ∃ p q q' id cause,
            Plan.Blocked g options host (request.roots.map Prod.snd) p q q' id cause e ∧
              e.trace = [q'.location id]) ∨
        ∃ p path m, Plan.make g options (request.roots.map Prod.snd) host = .ok p ∧
          (∃ root ∈ request.roots.map Prod.snd, p.resolve root = .ok m) ∧
          e.Tracks p (path ++ [⟨m, []⟩]) ∧
          e.trace.getLast? = some (p.location m) ∧
          e.trace.IsChain fun inner outer => inner ≠ outer ∧
            ∃ σ ∈ path ++ [⟨m, []⟩], ∃ τ ∈ path ++ [⟨m, []⟩], p.Step τ σ ∧
              p.location σ.node = inner ∧ p.location τ.node = outer) := by
  unfold build at h
  dsimp only at h
  split at h
  · cases h
    exact absurd rfl ht
  split at h
  · next hm =>
    cases h
    obtain ⟨p, q, q', id, cause, blocked⟩ := Plan.blocked_of_make hm ht
    have single : cause.node = none → cause.trace = [] → e.node = e.trace.head? ∧
        Plan.make g options (request.roots.map Prod.snd) host = .error e ∧
          ∃ p q q' id cause,
            Plan.Blocked g options host (request.roots.map Prod.snd) p q q' id cause e ∧
              e.trace = [q'.location id] := by
      intro hn ht
      obtain ⟨node, trace⟩ := blocked.alone hn ht
      exact ⟨by rw [node, trace]; rfl, hm, p, q, q', id, cause, blocked, trace⟩
    rcases Plan.of_addExpansion_error blocked.refused with ⟨c, rfl⟩ | ⟨c, r, hc, hr, rfl⟩
    · exact .inr ((single rfl rfl).imp_right .inl)
    · rw [blocked.host] at hr
      by_cases placed : r.IsPlaced
      · exact .inl ⟨p, q, q', id, c, r, blocked, hc, hr, placed⟩
      · obtain ⟨hn, ht⟩ := not_or.1 placed
        exact .inr ((single (not_not.1 hn) (not_not.1 ht)).imp_right .inl)
  · next p hm =>
    split at h
    · next hr =>
      cases h
      obtain ⟨r, hroot, ⟨c, rfl⟩ | ⟨m, hres, path, tracks⟩⟩ := Build.run_reports hr
      · exact absurd rfl ht
      have neighbours := isChain_destutter_map (f := fun σ => p.location σ.node) tracks.steps
      rw [← tracks.trace] at neighbours
      exact .inr ⟨tracks.node, .inr ⟨p, path, m, hm, ⟨r.2, List.mem_map_of_mem hroot, hres⟩, tracks,
        tracks.getLast?, neighbours⟩⟩
    · split at h
      · cases h
      · next ha =>
        cases h
        exact absurd (BuildState.trace_of_artifact ha) ht

/-- A context lends a member of something that is no struct to the value that is negated inside. -/
def membered : Graph := .ofNodes
  [.const .float [1], .member ⟨0⟩ "x", .contextValue "k" none, .unary .neg ⟨2⟩,
    .context ⟨3⟩ [("k", ⟨1⟩)]]

/-- The places that a refused build reports. -/
def places? : Except Failure Artifact → Option (List Location)
  | .error (.refused e) => some e.trace
  | _ => none

theorem of_places? {r : Except Failure Artifact} {ls : List Location} (h : places? r = some ls) :
    ∃ e, r = .error (.refused e) ∧ e.trace = ls := by
  unfold places? at h
  split at h
  · cases h
    exact ⟨_, rfl, rfl⟩
  · cases h

theorem membered_places : places? (build membered ⟨none, some ⟨4⟩, none⟩ .standard) =
    some [⟨⟨1⟩, "Member", some "x"⟩, ⟨⟨2⟩, "ContextValue", some "k"⟩, ⟨⟨3⟩, "Unary", none⟩,
      ⟨⟨4⟩, "Context", none⟩] := by
  decide +kernel

/-- The error points at the member and leads through the value that stands for it to the root. -/
theorem membered_trace : ∃ e, build membered ⟨none, some ⟨4⟩, none⟩ .standard = .error (.refused e) ∧
    e.trace ≠ [] ∧ e.node = e.trace.head? := by
  obtain ⟨e, he, ht⟩ := of_places? membered_places
  have placed : e.trace ≠ [] := ht ▸ List.cons_ne_nil _ _
  rcases trace_of_build he placed with ⟨_, _, _, _, _, _, _, _, refused, own⟩ | ⟨node, -⟩
  · exact absurd own (Custom.setup_not_placed refused)
  · exact ⟨e, he, placed, node⟩

end ShaderGraph
