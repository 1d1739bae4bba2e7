import ShaderGraph.Build.Control
import ShaderGraph.Proofs.Law

/-!
# Steps that look at no node

A step is `Aloof` when it ends alike whatever the nodes of the graph are, refuses nothing because
of a node that it did not find or cannot build, and remembers nothing about nodes
(`BuildState.memory`). For each way to compose steps there is a lemma that composes what is aloof;
then come the steps for names, inputs and declarations, one after the other.
-/

namespace ShaderGraph

/-- Whether something is refused because a reference leads nowhere. -/
def Cause.isMissing : Cause → Bool
  | .graph (.missingNode _) | .graph (.chain _) | .graph (.setupMissing _) => true
  | _ => false

/-- Whether something is refused because a node is missing or was not replaced. -/
def Cause.isUnmet (c : Cause) : Bool := c.isMissing || c.isUnexpanded

theorem Cause.isUnmet_of_isMissing {c : Cause} (h : c.isMissing = true) : c.isUnmet = true :=
  Bool.or_eq_true_iff.2 (.inl h)

theorem Cause.isUnmet_of_isUnexpanded {c : Cause} (h : c.isUnexpanded = true) :
    c.isUnmet = true := Bool.or_eq_true_iff.2 (.inr h)

/-- A failure that is not about a missing node or one that was not replaced. -/
def Failure.IsMild : Failure → Prop
  | .refused e => e.cause.isUnmet = false
  | .exhausted => True

/-- Graphs that differ in their nodes only and have the same number of them. -/
structure Graph.Kin (g g' : Graph) : Prop where
  uid : g'.uid = g.uid
  functions : g'.functions = g.functions
  size : g'.size = g.size

/-- The plan with other nodes and replacements. -/
def Plan.renewed (p : Plan) (g : Graph) (x : OrderedMap NodeId NodeId) : Plan :=
  { p with graph := g, expansions := x }

/-- The surroundings with other nodes and replacements. -/
def Env.renewed (env : Env) (g : Graph) (x : OrderedMap NodeId NodeId) : Env :=
  { env with plan := env.plan.renewed g x }

/-- What a state remembers about nodes. -/
structure Memory where
  cache : NodeCache
  types : OrderedMap (NodeId × FrameId) ValueType
  varyings : OrderedMap NodeId VaryingEntry
  visits : List Visit

/-- What a state remembers about nodes. -/
def BuildState.memory (s : BuildState) : Memory := ⟨s.cache, s.types, s.varyings, s.visits⟩

namespace Build

variable {α β : Type}

/-- The step looks at no node and remembers nothing about nodes. -/
def Aloof (step : Build α) : Prop :=
  ∀ env s g x, env.plan.graph.Kin g →
    step (env.renewed g x) s = step env s ∧
      Meets step env s Failure.IsMild fun _ s' => s'.memory = s.memory

namespace Aloof

/-! ### Composition -/

theorem pure (a : α) : Aloof (Pure.pure a : Build α) := fun _ _ _ _ _ => ⟨rfl, rfl⟩

theorem bind {step : Build α} {next : α → Build β} (h : Aloof step)
    (hn : ∀ a, Aloof (next a)) : Aloof (step >>= next) := by
  intro env s g x hg
  obtain ⟨same, meets⟩ := h env s g x hg
  rw [bind_run, bind_run, same, meets_bind]
  unfold Meets at meets ⊢
  cases hs : step env s with
  | error f =>
    rw [hs] at meets
    exact ⟨rfl, meets⟩
  | ok r =>
    rw [hs] at meets
    obtain ⟨same', meets'⟩ := hn r.1 env r.2 g x hg
    exact ⟨same', meets'.imp fun _ _ h => h.trans meets⟩

theorem map (f : α → β) {step : Build α} (h : Aloof step) : Aloof (f <$> step) := by
  rw [← bind_pure_comp]
  exact h.bind fun a => .pure (f a)

theorem discard {step : Build α} (h : Aloof step) : Aloof (discard step) :=
  h.map fun _ => PUnit.unit

theorem ite {c : Prop} [Decidable c] {a b : Build α} (ha : Aloof a) (hb : Aloof b) :
    Aloof (if c then a else b) := by
  split
  · exact ha
  · exact hb

/-- A step that is taken under a condition only, and what follows in any case. -/
theorem when {c : Prop} [Decidable c] {step : Build Unit} {next : Unit → Build α}
    (hs : Aloof step) (hn : ∀ u, Aloof (next u)) :
    Aloof (if c then step >>= next else next ()) := ite (hs.bind hn) (hn ())

theorem fail {c : Cause} (h : c.isUnmet = false) : Aloof (fail c : Build α) :=
  fun _ _ _ _ _ => ⟨rfl, h⟩

theorem exhaust : Aloof (exhaust : Build α) := fun _ _ _ _ _ => ⟨rfl, trivial⟩

theorem ofExcept {ε : Type} [Coe ε Cause] {r : Except ε α}
    (h : ∀ e, r = .error e → (e : Cause).isUnmet = false) : Aloof (ofExcept r) := by
  cases r with
  | ok a => exact pure a
  | error e => exact fail (h e rfl)

/-- A step that reads what does not depend on nodes. -/
theorem read {next : Env → Build α}
    (hr : ∀ (env : Env) g x, env.plan.graph.Kin g → next (env.renewed g x) = next env)
    (h : ∀ env, Aloof (next env)) : Aloof (MonadReader.read >>= next) := by
  intro env s g x hg
  show next (env.renewed g x) (env.renewed g x) s = next env env s ∧ Meets (next env) env s _ _
  rw [hr env g x hg]
  exact h env env s g x hg

theorem get {next : BuildState → Build α} (h : ∀ s, Aloof (next s)) :
    Aloof (MonadState.get >>= next) :=
  fun env s g x hg => h s env s g x hg

theorem modify {f : BuildState → BuildState} (h : ∀ s, (f s).memory = s.memory) :
    Aloof (modify f) := fun _ s _ _ _ => ⟨rfl, h s⟩

theorem modifyGet {f : BuildState → α × BuildState} (h : ∀ s, (f s).2.memory = s.memory) :
    Aloof (modifyGet f : Build α) := fun _ s _ _ _ => ⟨rfl, h s⟩

theorem modifyHere (f : StageBuild → StageBuild) : Aloof (modifyHere f) :=
  fun _ _ _ _ _ => ⟨rfl, rfl⟩

theorem here : Aloof here := fun _ _ _ _ _ => ⟨rfl, rfl⟩

theorem stage : Aloof stage := fun _ _ _ _ _ => ⟨rfl, rfl⟩

theorem dialect : Aloof dialect := fun _ _ _ _ _ => ⟨rfl, rfl⟩

theorem structMembers (name : String) : Aloof (structMembers name) := by
  refine read (fun _ _ _ _ => rfl) fun env => ?_
  split
  · exact pure _
  · exact fail rfl

theorem mapM {f : α → Build β} {xs : List α} (h : ∀ x ∈ xs, Aloof (f x)) :
    Aloof (xs.mapM f) := by
  induction xs with
  | nil =>
    rw [List.mapM_nil]
    exact pure _
  | cons x rest ih =>
    rw [List.mapM_cons]
    refine (h x (.head _)).bind fun y => ?_
    exact (ih fun x' hx' => h x' (.tail _ hx')).bind fun ys => pure _

theorem forM {f : α → Build PUnit} {xs : List α} (h : ∀ x ∈ xs, Aloof (f x)) :
    Aloof (xs.forM f) := by
  induction xs with
  | nil => exact pure _
  | cons x rest ih => exact (h x (.head _)).bind fun _ => ih fun x' hx' => h x' (.tail _ hx')

theorem forIn {f : α → Build Unit} {xs : List α} (h : ∀ x ∈ xs, Aloof (f x)) :
    Aloof (ForIn.forIn xs PUnit.unit fun x _ => do
      f x
      Pure.pure (ForInStep.yield PUnit.unit)) := by
  rw [forIn_eq_forM]
  exact forM h

end Aloof

/-! ### Names -/

theorem claimGlobal_aloof (name : String) : Aloof (claimGlobal name) :=
  .modifyGet fun _ => rfl

theorem claimBinding_aloof (count : Nat) : Aloof (claimBinding count) :=
  .modifyGet fun _ => rfl

theorem claimLocal_aloof (name : String) : Aloof (claimLocal name) :=
  .read (fun _ _ _ _ => rfl) fun _ => .modifyGet fun _ => rfl

theorem releaseLocal_aloof (name : String) : Aloof (releaseLocal name) := .modifyHere _

theorem claimTemp_aloof : Aloof claimTemp :=
  .read (fun _ _ _ _ => rfl) fun _ => .modifyGet fun _ => rfl

theorem claimVarying_aloof (name : Option String) : Aloof (claimVarying name) := by
  cases name with
  | some name => exact claimGlobal_aloof _
  | none => exact .modifyGet fun _ => rfl

theorem addStatement_aloof (st : Statement) : Aloof (addStatement st) := .modifyHere _

theorem isVisible_aloof (bound : BoundName) : Aloof (isVisible bound) :=
  .read (fun _ _ _ _ => rfl) fun _ => .bind .here fun _ => .pure _

theorem boundName?_aloof (id : NodeId) : Aloof (boundName? id) := by
  refine .read (fun _ _ _ _ => rfl) fun env => .get fun s => ?_
  split
  · exact .bind (isVisible_aloof _) fun _ => .pure _
  · exact .pure _

theorem recordKey_aloof (id : NodeId) : Aloof (recordKey id) :=
  .read (fun _ _ _ _ => rfl) fun _ => .get fun _ => .pure _

theorem usage_aloof (id : NodeId) : Aloof (usage id) :=
  .read (fun _ _ _ _ => rfl) fun _ => .get fun _ => .pure _

/-! ### Structs -/

theorem markTypeIn_aloof (fuel : Nat) (t : ValueType) : Aloof (markTypeIn fuel t) := by
  induction fuel generalizing t with
  | zero => exact .exhaust
  | succ fuel ih =>
    cases t with
    | struct name =>
      rw [markTypeIn]
      refine .bind .here fun b => .ite (.pure _) ?_
      refine .bind (.structMembers name) fun members => .bind (.forIn fun m _ => ih m.type) fun _ => ?_
      exact .modifyHere _
    | array element count => exact ih element
    | _ => exact .pure _

theorem markType_aloof (t : ValueType) : Aloof (markType t) :=
  .read (fun _ _ _ _ => rfl) fun _ => markTypeIn_aloof _ t

theorem useType_aloof (t : ValueType) : Aloof (useType t) := by
  refine .bind (markType_aloof t) fun _ => .bind .dialect fun d => ?_
  split
  · exact .fail rfl
  · exact .pure _

theorem declareTemp_aloof (type : ValueType) (init : Option Expr) (m : Mutability) :
    Aloof (declareTemp type init m) :=
  .bind (useType_aloof type) fun _ => .bind claimTemp_aloof fun _ =>
    .bind (addStatement_aloof _) fun _ => .pure _

/-! ### Uniforms -/

theorem groupEntry_aloof (group : String) : Aloof (groupEntry group) := by
  refine .get fun s => ?_
  split
  · exact .pure _
  · refine .bind (claimGlobal_aloof _) fun _ => .bind (claimGlobal_aloof _) fun _ => ?_
    exact .bind (.modify fun _ => rfl) fun _ => .pure _

theorem putGroup_aloof (group : String) (g : GroupEntry) : Aloof (putGroup group g) :=
  .modify fun _ => rfl

theorem uniformEntry_aloof (key : UniformKey) (type : ValueType) (update : Cadence)
    (value : List Float32) (id : NodeId) : Aloof (uniformEntry key type update value id) := by
  refine .get fun s => ?_
  split
  · exact .when (.fail rfl) fun _ => .pure _
  · refine .bind (groupEntry_aloof _) fun g => .bind (claimGlobal_aloof _) fun member => ?_
    exact .bind (putGroup_aloof _ _) fun _ => .bind (.modify fun _ => rfl) fun _ => .pure _

theorem scheduleUniform_aloof (key : UniformKey) (update : Cadence) (id : NodeId) :
    Aloof (scheduleUniform key update id) := by
  have record : Aloof (do
      let uid := (← read).plan.graph.uid
      modify fun s => { s with updates := s.updates.put id ⟨uid, id, key.name, update⟩ }) := by
    refine .read (fun env g x hg => ?_) fun _ => .modify fun _ => rfl
    rw [show (env.renewed g x).plan.graph.uid = env.plan.graph.uid from hg.uid]
  refine .ite (.pure _) (.bind (groupEntry_aloof _) fun g => ?_)
  split
  · exact .when (.fail rfl) fun _ => record
  · exact .bind (putGroup_aloof _ _) fun _ => record

theorem registerUniform_aloof (id : NodeId) (name : String) (type : ValueType)
    (group : Option String) (update : Cadence) (value : List Float32) :
    Aloof (registerUniform id name type group update value) := by
  unfold registerUniform
  refine .when (.fail rfl) fun _ => ?_
  refine .bind (uniformEntry_aloof ⟨name, group.getD update.defaultGroup⟩ _ _ _ _) fun u => ?_
  exact .bind (scheduleUniform_aloof _ _ _) fun _ => .pure _

theorem useUniform_aloof (group : String) (u : UniformEntry) : Aloof (useUniform group u) := by
  refine .bind (groupEntry_aloof _) fun g => .ite (.bind (claimBinding_aloof _) fun _ => ?_) ?_
  · exact .bind (putGroup_aloof _ _) fun _ => .bind (.modifyHere _) fun _ => .pure _
  · exact .bind (.modifyHere _) fun _ => .pure _

/-! ### Textures, storage buffers and attributes -/

theorem registerTexture_aloof (name : String) : Aloof (registerTexture name) := by
  refine .get fun s => ?_
  split
  · exact .pure _
  · refine .bind (claimGlobal_aloof _) fun _ => .bind (claimGlobal_aloof _) fun _ => ?_
    exact .bind (.modify fun _ => rfl) fun _ => .pure _

theorem useTexture_aloof (name : String) : Aloof (useTexture name) := by
  refine .bind (registerTexture_aloof _) fun t => .ite (.bind (claimBinding_aloof _) fun _ => ?_) ?_
  · exact .bind (.modify fun _ => rfl) fun _ => .bind (.modifyHere _) fun _ => .pure _
  · exact .bind (.modifyHere _) fun _ => .pure _

theorem registerStorage_aloof (name : String) (element : ValueType) (count : Option UInt32)
    (access : Access) : Aloof (registerStorage name element count access) := by
  refine .get fun s => ?_
  split
  · exact .when (.fail rfl) fun _ => .bind (.modify fun _ => rfl) fun _ => .pure _
  · refine .when (.fail rfl) fun _ => .bind (claimGlobal_aloof _) fun _ => ?_
    exact .bind (claimGlobal_aloof _) fun _ => .bind (.modify fun _ => rfl) fun _ => .pure _

theorem useStorage_aloof (name : String) (b : StorageEntry) : Aloof (useStorage name b) := by
  have declare : Aloof (do
      markType b.element
      modifyHere fun h => { h with storage := appendNew h.storage name }
      return Expr.reference (.storage b.name)) :=
    .bind (markType_aloof _) fun _ => .bind (.modifyHere _) fun _ => .pure _
  refine .ite (.bind (claimBinding_aloof _) fun _ => ?_) declare
  exact .bind (.modify fun _ => rfl) fun _ => declare

theorem attributeType_aloof (name : String) (explicit : Option ValueType) :
    Aloof (attributeType name explicit) := by
  refine .read (fun _ _ _ _ => rfl) fun env => ?_
  split
  · exact .pure _
  · exact .fail rfl

theorem registerAttribute_aloof (name : String) (explicit : Option ValueType) :
    Aloof (registerAttribute name explicit) := by
  refine .bind (attributeType_aloof _ _) fun type => .when (.fail rfl) fun _ => .get fun s => ?_
  split
  · exact .when (.fail rfl) fun _ => .pure _
  · exact .bind (claimGlobal_aloof _) fun _ => .bind (.modify fun _ => rfl) fun _ => .pure _

theorem useAttribute_aloof (name : String) (explicit : Option ValueType) :
    Aloof (useAttribute name explicit) :=
  .bind (registerAttribute_aloof _ _) fun _ =>
    .when (.modify fun _ => rfl) fun _ => .bind (.modifyHere _) fun _ => .pure _

theorem useBuiltin_aloof (b : Builtin) : Aloof (useBuiltin b) :=
  .bind .stage fun _ => .when (.fail rfl) fun _ => .bind (.modifyHere _) fun _ => .pure _

/-! ### Native functions -/

theorem emitFunction_aloof (native : NativeFunction) (f : Native.Declaration) (claimed : String)
    (includes : List String) : Aloof (emitFunction native f claimed includes) := by
  refine .bind .dialect fun _ => .ite (.pure _) (.ite ?_ (.fail rfl))
  refine .read (fun _ _ _ _ => rfl) fun _ => .bind (.ofExcept fun _ _ => rfl) fun _ => ?_
  exact .when (.modify fun _ => rfl) fun _ => .pure _

theorem functionEntry_aloof (native : NativeFunction) (f : Native.Declaration)
    (includes : List String) : Aloof (functionEntry native f includes) :=
  .bind (claimGlobal_aloof _) fun _ => .bind (emitFunction_aloof _ _ _ _) fun _ => .pure _

theorem registerFunctionIn_aloof (fuel : Nat) (path : List FunctionId) (id : FunctionId) :
    Aloof (registerFunctionIn fuel path id) := by
  induction fuel generalizing path id with
  | zero => exact .exhaust
  | succ fuel ih =>
    rw [registerFunctionIn]
    refine .get fun s => ?_
    split
    · exact .pure _
    · refine .when (.fail rfl) fun _ => .read (fun env g x hg => ?_) fun env => ?_
      · rw [show (env.renewed g x).plan.graph.function? id = env.plan.graph.function? id from
          congrArg (·[id.index]?) hg.functions]
      · split
        · exact .fail rfl
        · refine .bind (.mapM fun i _ => ih _ _) fun includes => ?_
          refine .bind (.ofExcept fun _ _ => rfl) fun f => ?_
          refine .bind (functionEntry_aloof _ _ _) fun e => ?_
          exact .bind (.modify fun _ => rfl) fun _ => .pure _

theorem includeDepth_aloof : Aloof includeDepth := by
  refine .read (fun env g x hg => ?_) fun _ => .pure _
  rw [show (env.renewed g x).plan.graph.functions = env.plan.graph.functions from hg.functions]

theorem registerFunction_aloof (id : FunctionId) : Aloof (registerFunction id) :=
  .bind includeDepth_aloof fun _ => registerFunctionIn_aloof _ _ _

theorem useFunctionIn_aloof (fuel : Nat) (id : FunctionId) : Aloof (useFunctionIn fuel id) := by
  induction fuel generalizing id with
  | zero => exact .exhaust
  | succ fuel ih =>
    rw [useFunctionIn]
    refine .bind (registerFunction_aloof _) fun entry => .bind .here fun b => .ite (.pure _) ?_
    refine .bind (.forIn fun i _ => ih i) fun _ => ?_
    refine .bind (.forIn fun p _ => markType_aloof _) fun _ => ?_
    exact .bind (markType_aloof _) fun _ => .modifyHere _

theorem useFunction_aloof (id : FunctionId) : Aloof (useFunction id) :=
  .bind includeDepth_aloof fun _ => useFunctionIn_aloof _ _

/-! ### Values and types -/

theorem buildConstant_aloof (type : ValueType) (values : List Float) :
    Aloof (buildConstant type values) :=
  .bind (.discard (.ofExcept fun _ _ => rfl)) fun _ =>
    .ite (.pure _) (.bind (useType_aloof _) fun _ => .pure _)

theorem buildProperty_aloof (name : String) (type : ValueType) :
    Aloof (buildProperty name type) := by
  refine .bind .here fun b => ?_
  split
  · exact .when (.fail rfl) fun _ => .pure _
  · refine .bind (useType_aloof _) fun _ => .bind (claimLocal_aloof _) fun _ => ?_
    exact .bind (.modifyHere _) fun _ => .pure _

theorem buildAttribute_aloof (name : String) (type : Option ValueType) :
    Aloof (buildAttribute name type) :=
  .bind .stage fun _ => .when (.fail rfl) fun _ => useAttribute_aloof _ _

theorem buildStorage_aloof (name : String) (element : ValueType) (count : Option UInt32)
    (access : Access) : Aloof (buildStorage name element count access) :=
  .bind (registerStorage_aloof _ _ _ _) fun _ => useStorage_aloof _ _

theorem memberType_aloof (base : ValueType) (name : String) : Aloof (memberType base name) := by
  unfold memberType
  split
  · refine .bind (.structMembers _) fun members => ?_
    split
    · exact .pure _
    · exact .fail rfl
  · exact .fail rfl

theorem elementType_aloof (base index : ValueType) : Aloof (elementType base index) := by
  unfold elementType
  refine .when (.fail rfl) fun _ => ?_
  split
  · exact .pure _
  · exact .fail rfl

theorem variableType_aloof (t : ValueType) : Aloof (variableType t) := by
  unfold variableType
  exact .when (.fail rfl) fun _ => .pure _

theorem depthBound_aloof : Aloof depthBound := by
  refine .read (fun env g x hg => ?_) fun _ => .pure _
  rw [show (env.renewed g x).plan.graph.size = env.plan.graph.size from hg.size]

theorem buildJump_aloof (j : Jump) : Aloof (buildJump j) := by
  refine .read (fun _ _ _ _ => rfl) fun env => ?_
  exact .when (.fail rfl) fun _ => addStatement_aloof _

end Build

end ShaderGraph
