import ShaderGraph.Proofs.Coverage
import ShaderGraph.Proofs.Generation
import ShaderGraph.Proofs.Listing

/-!
# The tables of inputs

`BuildState.inputs` is the part of a state that says which uniforms, textures, storage buffers,
attributes and varyings there are, which numbers they have and which stages declare them. Few steps
change it: those that enter and use inputs. A law that looks at this part and at the names of items
only (`Law.OfInputs`) is kept by a whole run when it is kept by these steps, by varyings and by the
visits at nodes (`OfInputs.run_keeps`).
-/

namespace ShaderGraph

/-- The inputs that a stage declares. -/
structure InputLists where
  groups : List String
  textures : List String
  storage : List String
  attributes : List String
  varyings : List NodeId

/-- The inputs that a stage declares. -/
def StageBuild.inputs (b : StageBuild) : InputLists :=
  ⟨b.groups, b.textures, b.storage, b.attributes, b.varyings⟩

/-- What a state knows about inputs, and its visits. -/
structure InputTables where
  uniforms : OrderedMap UniformKey UniformEntry
  groups : OrderedMap String GroupEntry
  textures : OrderedMap String TextureEntry
  storage : OrderedMap String StorageEntry
  attributes : OrderedMap String AttributeEntry
  varyings : OrderedMap NodeId VaryingEntry
  nextBinding : Nat
  nextAttribute : Nat
  nextVarying : Nat
  lists : Stage → InputLists
  visits : List Visit

/-- The tables of inputs of a state. -/
def BuildState.inputs (s : BuildState) : InputTables where
  uniforms := s.uniforms
  groups := s.groups
  textures := s.textures
  storage := s.storage
  attributes := s.attributes
  varyings := s.varyings
  nextBinding := s.nextBinding
  nextAttribute := s.nextAttribute
  nextVarying := s.nextVarying
  lists t := (s.stages.get t).inputs
  visits := s.visits

/-- A change of what was collected for one stage that leaves its inputs alone. -/
theorem inputs_modify (s : BuildState) (t : Stage) {f : StageBuild → StageBuild}
    (hf : ∀ b, (f b).inputs = b.inputs) :
    { s with stages := s.stages.modify t f }.inputs = s.inputs := by
  have lists : ∀ u, ((s.stages.modify t f).get u).inputs = (s.stages.get u).inputs :=
    fun u => s.stages.map_get_modify t u hf
  simp only [BuildState.inputs, lists]

theorem StageBuild.inputs_add (b : StageBuild) (st : Statement) : (b.add st).inputs = b.inputs := by
  unfold StageBuild.add
  split <;> rfl

open Build

/-! ### Steps that leave the inputs alone -/

/-- What leaves the tables of inputs alone keeps to. -/
def Law.inputs : Law where
  inv _ _ := True
  rel _ s s' := s'.inputs = s.inputs
  ends _ := True
  refl _ := rfl
  trans h h' := h'.trans h
  mono _ _ := trivial
  loops _ _ := trivial
  ordinary _ := trivial
  located _ := trivial

namespace Build

open Law

variable {env : Env} {α : Type}

theorem inputs_modifyHere {f : StageBuild → StageBuild} (h : ∀ b, (f b).inputs = b.inputs) :
    Law.inputs.Keeps env (modifyHere f) :=
  fun s _ => inputs_modify s env.stage h

theorem markType_inputs (t : ValueType) : Law.inputs.Keeps env (markType t) :=
  .read (.markTypeIn trivial (fun _ => inputs_modifyHere fun _ => rfl) _ t)

theorem useType_inputs (t : ValueType) : Law.inputs.Keeps env (useType t) :=
  .useType markType_inputs t

theorem registerFunction_inputs (f : FunctionId) : Law.inputs.Keeps env (registerFunction f) :=
  .bind (.read (.pure _)) fun fuel =>
    .registerFunctionIn (L := Law.inputs) trivial (fun _ _ _ => rfl) (fun _ _ _ => rfl)
      (fun _ _ _ _ => rfl) fuel [] f

theorem useFunction_inputs (f : FunctionId) : Law.inputs.Keeps env (useFunction f) :=
  .bind (.read (.pure _)) fun fuel =>
    .useFunctionIn trivial markType_inputs registerFunction_inputs
      (fun _ => inputs_modifyHere fun _ => rfl) fuel f

theorem typeOf_inputs (id : NodeId) : Law.inputs.Keeps env (typeOf id) :=
  typeOf_indifferent
    ⟨fun _ => trivial, fun _ _ _ => trivial, fun _ _ _ => rfl, registerFunction_inputs⟩ id

theorem bindName_inputs (id : NodeId) (name : String) (frame : Option FrameId) :
    Law.inputs.Keeps env (bindName id name frame) :=
  .read (.bind .here fun _ _ _ => rfl)

end Build

/-! ### Analysis -/

/-- What enters inputs keeps to the law. -/
structure Law.Enters (L : Law) : Prop where
  uniform : ∀ {env} id name type group update value,
    L.Keeps env (registerUniform id name type group update value)
  texture : ∀ {env} name, L.Keeps env (registerTexture name)
  storage : ∀ {env} name element count access,
    L.Keeps env (registerStorage name element count access)
  meshAttribute : ∀ {env} name type, L.Keeps env (registerAttribute name type)

/-- A law that says nothing of what is around a node, apart from the plan and the stages that are
built. -/
structure Law.Roams (L : Law) : Prop where
  ends : ∀ f, L.ends f
  around : ∀ {env env' s}, L.inv env s → env'.plan = env.plan → env'.active = env.active → L.inv env' s
  frames : ∀ s frames, L.rel [] s { s with frames := frames }
  scopes : ∀ {env s} (id : NodeId) (shares : Bool), L.inv env s →
    L.rel [] s { s with cache := (s.cache.scopeFor env.scope id shares).2 }
  functions : ∀ {env} f, L.Keeps env (registerFunction f)

namespace Law

variable {L : Law} {env : Env}

theorem Unscoped.roams (h : L.Unscoped)
    (around : ∀ {env env' s}, L.inv env s → env'.plan = env.plan → L.inv env' s) : L.Roams where
  ends := h.ends
  around hi hp _ := around hi hp
  frames s frames := h.types s frames s.types
  scopes := h.scopes
  functions := h.functions

theorem Closed.enters (hc : L.Closed) : L.Enters where
  uniform := hc.registerUniform
  texture := hc.registerTexture
  storage name element count access := fun _ hi =>
    (hc.registerStorage name element count access hi).imp fun _ _ hr => hr.1
  meshAttribute := hc.registerAttribute

/-- Analysis of a node enters its input and walks on. -/
theorem Roams.analyzeNode (h : L.Roams) (he : L.Enters) {analyze : NodeId → Build Unit} {id : NodeId}
    {n : Node}
    (walk : ∀ env c, L.Keeps env (analyze c))
    (varying : ∀ source name interpolation sampling,
      n = .varying source name interpolation sampling →
        L.Keeps env (registerVarying id source name interpolation sampling)) :
    L.Keeps env (analyzeNode analyze id n) := by
  have all : ∀ cs : List NodeId, L.Keeps env (cs.forM analyze) :=
    fun cs => .forM fun c _ => walk env c
  cases n with
  | uniform name type group update value =>
    exact .discard (he.uniform id name type group update value)
  | meshAttribute name type => exact .discard (he.meshAttribute name type)
  | storageBuffer name element count access =>
    exact .discard (he.storage name element count access)
  | texture name uv level => exact .bind (.discard (he.texture name)) fun _ => all _
  | call f args => exact .bind (.discard (h.functions f)) fun _ => all _
  | varying source name interpolation sampling =>
    refine .bind (.discard (varying _ _ _ _ rfl)) fun _ => ?_
    refine (walk (within env .vertex) source).inStage (fun s hi => ?_)
      (fun _ _ hr => hr) fun _ he => he
    refine h.around hi ?_ ?_
    · unfold within
      split <;> rfl
    · unfold within
      split <;> rfl
  | cache inner shares =>
    intro s hi
    unfold Build.analyzeNode
    rw [meets_bind, meets_cacheScope, meets_inScope]
    have grown := h.scopes id shares hi
    refine (walk _ inner _ ?_).imp fun _ _ hr => L.trans grown hr
    exact h.around (L.mono hi grown) rfl rfl
  | context inner values =>
    intro s hi
    show Meets (inContext id values (analyze inner)) env s _ _
    rw [meets_inContext]
    have grown := h.frames s (s.frames.extend (Frame.current env.frames) id).2
    refine (walk _ inner _ ?_).imp fun _ _ hr => L.trans grown hr
    exact h.around (L.mono hi grown) rfl rfl
  | contextValue key fallback =>
    intro s hi
    show Meets (withContextValue key fallback analyze) env s _ _
    rw [meets_withContextValue]
    split
    · next c outer _ =>
      have outside : L.inv { env with frames := outer } s := h.around hi rfl rfl
      exact walk _ c s outside
    · next c _ => exact walk env c s hi
    · exact h.ends _
  | _ => exact all _

/-- Analysis keeps to a law that entering inputs and varyings and counting keep to. -/
theorem Roams.analyzeIn (h : L.Roams) (he : L.Enters)
    (counted : ∀ s env m, L.rel [] s (s.counting env m))
    (varying : ∀ env id source name interpolation sampling,
      env.plan.node id = .ok (.varying source name interpolation sampling) →
        L.Keeps env (registerVarying id source name interpolation sampling)) (fuel : Nat)
    (id : NodeId) : L.Keeps env (analyzeIn fuel id) := by
  induction fuel generalizing env id with
  | zero => exact fun _ _ => h.ends _
  | succ fuel ih =>
    intro s hi
    refine meets_analyzeIn (fun _ _ _ => h.ends _) (fun m _ _ _ => counted s env m) ?_
    intro m n _ _ _ hn
    have deeper : L.inv { env with path := m :: env.path } (s.counting env m) :=
      h.around (L.mono hi (counted s env m)) rfl rfl
    have node : L.Keeps { env with path := m :: env.path }
        (Build.analyzeNode (Build.analyzeIn fuel) m n) := by
      refine h.analyzeNode he (fun env c => ih c) ?_
      rintro source name interpolation sampling rfl
      exact varying _ m source name interpolation sampling hn
    exact (node _ deeper).imp fun _ _ hr => L.trans (counted s env m) hr

end Law

/-! ### Laws about inputs -/

/-- A law about the names of items and the tables of inputs of builds of a plan. -/
structure Law.OfInputs (L : Law) (p : Plan) : Prop where
  ends : ∀ f, L.ends f
  plan : ∀ {env s}, L.inv env s → env.plan = p
  /-- Only the plan matters of what is around a node. -/
  around : ∀ {env env' s}, L.inv env s → env'.plan = env.plan → L.inv env' s
  rel : ∀ {s s'}, s.Enters p s' → s'.inputs = s.inputs → L.rel [] s s'
  any : ∀ {ss s s'}, L.rel ss s s' → L.rel [] s s'
  all : ∀ {ss s s'}, L.rel [] s s' → L.rel ss s s'
  names : ∀ n, L.names n := by exact fun _ => trivial
  places : ∀ e, L.places e := by exact fun _ => trivial

namespace Law.OfInputs

variable {L : Law} {p : Plan} {env : Env} {s s' : BuildState} {α : Type}

/-- A step that enters items which are no inputs. -/
theorem keeps (h : L.OfInputs p) {step : Build α}
    (hl : env.plan = p → (Law.listing p).Keeps env step)
    (hi : Law.inputs.Keeps env step) : L.Keeps env step := by
  intro s hs
  refine (((hl (h.plan hs) s (h.plan hs)).and (hi s trivial)).mono (fun f _ => h.ends f) ?_)
  exact fun _ s' hr => h.rel hr.1.toEnters hr.2

/-- A change of what was collected for one stage, apart from the inputs. -/
theorem modify (h : L.OfInputs p) {t : Stage} {f : StageBuild → StageBuild}
    (hf : ∀ b, (f b).inputs = b.inputs) :
    L.rel [] s { s with stages := s.stages.modify t f } :=
  h.rel (.of_eq rfl rfl rfl rfl rfl) (inputs_modify s t hf)

/-- Such a law is kept by what happens at single nodes if it is by what enters and uses inputs. -/
theorem closed (h : L.OfInputs p)
    (registerUniform : ∀ env id name type group update value,
      L.Keeps env (registerUniform id name type group update value))
    (useUniform : ∀ env group u, L.Keeps env (useUniform group u))
    (registerTexture : ∀ env name, L.Keeps env (registerTexture name))
    (useTexture : ∀ env name, L.Keeps env (useTexture name))
    (registerStorage : ∀ env s name element count access, L.inv env s →
      Meets (registerStorage name element count access) env s L.ends fun _ s' => L.rel [] s s')
    (useStorage : ∀ env s name b, L.inv env s → s.storage.get? name = some b →
      Meets (useStorage name b) env s L.ends fun _ s' => L.rel [] s s')
    (registerAttribute : ∀ env name type, L.Keeps env (registerAttribute name type))
    (useAttribute : ∀ env name type, env.stage = .vertex → L.Keeps env (useAttribute name type)) :
    L.Closed where
  registerUniform := registerUniform _
  useUniform := useUniform _
  registerTexture := registerTexture _
  useTexture := useTexture _
  registerStorage name element count access hs :=
    (registerStorage _ _ name element count access hs).and (registerStorage_entry _ _ _ _)
  useStorage name b hs hb := useStorage _ _ name b hs hb
  registerAttribute := registerAttribute _
  useAttribute := useAttribute _
  useBuiltin b := h.keeps (fun _ => useBuiltin_listing b) <| by
    refine .bind .stage fun t => .when (fun _ => .fail rfl) fun _ => ?_
    exact .bind (inputs_modifyHere fun _ => rfl) fun _ => .pure _
  property name type := by
    refine .bind .here fun b => ?_
    split
    · exact .when (fun _ => .fail rfl) fun _ => .pure _
    · refine .bind (h.keeps (fun _ => useType_listing type) (useType_inputs type)) fun _ => ?_
      refine .bind (fun _ _ => h.modify fun _ => rfl) fun emitted => ?_
      exact .bind (fun _ _ => h.modify fun _ => rfl) fun _ => .pure _
  useType type := h.keeps (fun _ => useType_listing type) (useType_inputs type)
  registerFunction f := h.keeps (fun _ => registerFunction_lists f) (registerFunction_inputs f)
  useFunction f := h.keeps (fun _ => useFunction_listing f) (useFunction_inputs f)
  claimLocal _ := .ofKeeps (fun _ _ => h.modify fun _ => rfl) h.names
  releaseLocal _ := fun _ _ => h.modify fun _ => rfl
  claimTemp := .ofKeeps (fun _ _ => h.modify fun _ => rfl) h.names
  bindValue name _ _ := .read (h.keeps (fun _ => bindName_listing _ name _)
    (bindName_inputs _ name _))
  add _ _ hr := L.trans (h.any hr) (h.modify fun b => b.inputs_add _)
  inBlock := fun {env step} hs s hi => by
    unfold Build.inBlock
    rw [meets_bind, meets_modifyHere, meets_bind]
    have opened : L.rel [] s { s with stages := s.stages.modify env.stage StageBuild.openBlock } :=
      h.modify fun _ => rfl
    refine (hs _ (L.mono hi opened)).imp fun _ s' hr => ?_
    rw [meets_bind, meets_here, meets_bind, meets_modifyHere, meets_pure]
    exact h.all (L.trans (L.trans opened hr) (h.modify fun _ => rfl))

/-- It says nothing about the contexts and the scope around a node. -/
theorem unscoped (h : L.OfInputs p) : L.Unscoped where
  ends := h.ends
  surroundings hi hp _ := h.around hi hp
  types _ _ _ := h.rel (.of_eq rfl rfl rfl rfl rfl) rfl
  functions f := h.keeps (fun _ => registerFunction_lists f) (registerFunction_inputs f)
  scopes _ _ _ := h.rel (.of_eq rfl rfl rfl rfl rfl) rfl

theorem declareVariable (h : L.OfInputs p) {id value : NodeId} {readOnly : Bool} {name : String}
    {type : ValueType} {init : Expr} :
    L.Keeps env (declareVariable id value readOnly name type init) := by
  refine .bind (.mutability value readOnly) fun m => .bind (.recordKey id) fun key => ?_
  refine .bind (fun _ _ => h.modify fun b => b.inputs_add _) fun _ => ?_
  exact h.keeps (fun _ => bindName_listing id name none) (bindName_inputs id name none)

/-- The code of a node keeps to such a law when the code of a varying does. -/
theorem generateNode (h : L.OfInputs p) (hc : L.Closed) {g : Generator} (hg : L.Runs g)
    {id : NodeId}
    {n : Node} (hn : env.plan.node id = .ok n)
    (varying : ∀ source name interpolation sampling,
      n = .varying source name interpolation sampling →
        L.Keeps env (buildVarying g id source name interpolation sampling)) :
    L.Keeps env (generateNode g id n) := by
  refine h.unscoped.generateNode hc hg hn varying ?_
  rintro value name readOnly rfl
  exact .buildVariable hc.toStraight (typeOf_indifferent h.unscoped.toIndifferent id)
    (hg.serves h.unscoped.toIndifferent) fun _ _ _ _ => h.declareVariable

/-! ### Runs -/

theorem analyzeIn (h : L.OfInputs p) (hc : L.Closed)
    (varying : ∀ env id source name interpolation sampling,
      p.node id = .ok (.varying source name interpolation sampling) →
        L.Keeps env (registerVarying id source name interpolation sampling)) {fuel : Nat}
    (id : NodeId) : L.Keeps env (analyzeIn fuel id) := by
  refine (h.unscoped.roams h.around).analyzeIn hc.enters ?_ ?_ fuel id
  · exact fun s env m => h.rel (.of_eq rfl rfl rfl rfl rfl) rfl
  · exact fun env m source name interpolation sampling hn s hi =>
      varying env m source name interpolation sampling (h.plan hi ▸ hn) s hi

/-- A whole run keeps to such a law. -/
theorem run_keeps (h : L.OfInputs p) (hc : L.Closed) {rs : List (Stage × NodeId)}
    (varying : ∀ env id source name interpolation sampling,
      p.node id = .ok (.varying source name interpolation sampling) →
        L.Keeps env (registerVarying id source name interpolation sampling))
    (runs : ∀ fuel, L.Runs (generator fuel))
    (start : ∀ t, L.inv (Env.root p (rs.map Prod.fst) t) (BuildState.start p))
    (hrun : run p rs = .ok s) : L.rel [] (BuildState.start p) s := by
  obtain ⟨s₀, hanalyze, hgenerate⟩ := of_run hrun
  have analyzed : ∀ r ∈ rs, L.Keeps (Env.root p (rs.map Prod.fst) r.1) (analyze r.2) :=
    fun r _ => .read (h.analyzeIn hc varying r.2)
  have first := Law.Keeps.atRoots (fun r _ => start r.1) analyzed
  rw [hanalyze] at first
  have second := generate_keeps (L := fun _ => L) (M := L) (fun _ => h.unscoped)
    (fun fuel _ => runs fuel)
    (fun _ _ _ _ _ => h.modify fun _ => rfl) (fun _ _ hi => hi) (fun _ _ _ hr => hr) h.ends
    (fun t => L.mono (start t) first) hgenerate
  exact L.trans first second

end Law.OfInputs

end ShaderGraph
