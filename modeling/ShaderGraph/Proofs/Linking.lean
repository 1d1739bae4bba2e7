import ShaderGraph.Proofs.CallWalk
import ShaderGraph.Proofs.Collected
import ShaderGraph.Proofs.Declarations
import ShaderGraph.Proofs.Inputs

/-!
# The native functions of stages

`BuildState.kernel` is what a state holds besides names, inputs and declarations of them: unlike the
core it includes which native functions the stages declare and call, and what their entry points
return. The steps that enter and use inputs leave it alone (`kernel_plain`).

A stage lists the native functions that its program declares. `BuildState.Links` says what a part of
a build does to these lists: each function comes once and behind those that it includes, what the code
calls is listed, and what is listed is called or included by something that is called. The table of
functions holds what was read from the sources (`BuildState.Transcribed`).
-/

namespace ShaderGraph

/-! ## Steps that leave the kernel alone -/

/-- The native functions that some statements call, in their blocks as well. -/
def Statement.calleesIn (ss : List Statement) : List String := collectIn callees ss

/-- What a stage holds besides names, inputs and declarations of them. -/
structure StageKernel where
  inner : List Block
  outer : Block
  nextBlock : Nat
  functions : List FunctionId
  output : Option Expr
  /-- The native functions that the declarations at the top call. -/
  callees : List String

/-- What a stage holds besides names, inputs and declarations of them. -/
def StageBuild.kernel (b : StageBuild) : StageKernel :=
  ⟨b.inner, b.outer, b.nextBlock, b.functions, b.output, Statement.calleesIn b.locals⟩

/-- What a state holds besides names, inputs and declarations of them. -/
structure Kernel where
  cache : NodeCache
  frames : FrameTable
  types : OrderedMap (NodeId × FrameId) ValueType
  varyings : OrderedMap NodeId VaryingEntry
  functions : OrderedMap FunctionId FunctionEntry
  visits : List Visit
  stages : Stage → StageKernel

/-- What a state holds besides names, inputs and declarations of them. -/
def BuildState.kernel (s : BuildState) : Kernel where
  cache := s.cache
  frames := s.frames
  types := s.types
  varyings := s.varyings
  functions := s.functions
  visits := s.visits
  stages t := (s.stages.get t).kernel

/-- A change of what was collected for one stage that leaves its kernel alone. -/
theorem kernel_modify (s : BuildState) (t : Stage) {f : StageBuild → StageBuild}
    (h : ∀ b, (f b).kernel = b.kernel) :
    { s with stages := s.stages.modify t f }.kernel = s.kernel := by
  have same : ∀ u, ((s.stages.modify t f).get u).kernel = (s.stages.get u).kernel :=
    fun u => s.stages.map_get_modify t u h
  simp only [BuildState.kernel, same]

/-- What leaves the kernel alone keeps to. -/
def Law.kernel : Law where
  inv _ _ := True
  rel _ s s' := s'.kernel = s.kernel
  ends _ := True
  refl _ := rfl
  trans h h' := h'.trans h
  mono _ _ := trivial
  loops _ _ := trivial
  ordinary _ := trivial
  located _ := trivial

namespace Build

open Law

variable {env : Env} {s s' : BuildState}

theorem functions_of_kernel (h : s'.kernel = s.kernel) : s'.functions = s.functions :=
  congrArg Kernel.functions h

theorem kernel_ofModify {f : BuildState → BuildState} (h : ∀ s, (f s).kernel = s.kernel) :
    Law.kernel.Keeps env (modify f) := fun s _ => h s

theorem kernel_modifyHere {f : StageBuild → StageBuild} (h : ∀ b, (f b).kernel = b.kernel) :
    Law.kernel.Keeps env (modifyHere f) := fun s _ => kernel_modify s env.stage h

/-! ### Names and types -/

theorem claimGlobal_kernel (name : String) : Law.kernel.Keeps env (claimGlobal name) :=
  fun _ _ => rfl

theorem claimBinding_kernel (count : Nat) : Law.kernel.Keeps env (claimBinding count) :=
  fun _ _ => rfl

theorem claimLocal_kernel (name : String) : Law.kernel.Keeps env (claimLocal name) :=
  fun s _ => kernel_modify s env.stage fun _ => rfl

theorem markType_kernel (t : ValueType) : Law.kernel.Keeps env (markType t) :=
  .read (.markTypeIn trivial (fun _ => kernel_modifyHere fun _ => rfl) _ t)

theorem useType_kernel (t : ValueType) : Law.kernel.Keeps env (useType t) :=
  .useType markType_kernel t

/-! ### Uniforms -/

theorem groupEntry_kernel (group : String) : Law.kernel.Keeps env (groupEntry group) := by
  refine .get fun s => ?_
  split
  · exact .pure _
  · refine .bind (claimGlobal_kernel _) fun block => .bind (claimGlobal_kernel _) fun inst => ?_
    exact .bind (kernel_ofModify fun _ => rfl) fun _ => .pure _

theorem putGroup_kernel (group : String) (g : GroupEntry) :
    Law.kernel.Keeps env (putGroup group g) :=
  kernel_ofModify fun _ => rfl

theorem uniformEntry_kernel (key : UniformKey) (type : ValueType) (update : Cadence)
    (value : List Float32) (id : NodeId) :
    Law.kernel.Keeps env (uniformEntry key type update value id) := by
  refine .get fun s => ?_
  split
  · exact .when (fun _ => .fail rfl) fun _ => .pure _
  · refine .bind (groupEntry_kernel _) fun g => .bind (claimGlobal_kernel _) fun member => ?_
    exact .bind (putGroup_kernel _ _) fun _ => .bind (kernel_ofModify fun _ => rfl) fun _ => .pure _

theorem scheduleUniform_kernel (key : UniformKey) (update : Cadence) (id : NodeId) :
    Law.kernel.Keeps env (scheduleUniform key update id) := by
  have record : Law.kernel.Keeps env (do
      let uid := (← read).plan.graph.uid
      modify fun s => { s with updates := s.updates.put id ⟨uid, id, key.name, update⟩ }) :=
    .read (kernel_ofModify fun _ => rfl)
  refine .ite (fun _ => .pure _) fun _ => .bind (groupEntry_kernel _) fun g => ?_
  split
  · exact .when (fun _ => .fail rfl) fun _ => record
  · exact .bind (putGroup_kernel _ _) fun _ => record

theorem registerUniform_kernel (id : NodeId) (name : String) (type : ValueType)
    (group : Option String) (update : Cadence) (value : List Float32) :
    Law.kernel.Keeps env (registerUniform id name type group update value) := by
  unfold registerUniform
  refine .when (fun _ => .fail rfl) fun _ => ?_
  refine .bind (uniformEntry_kernel ⟨name, group.getD update.defaultGroup⟩ _ _ _ _) fun u => ?_
  exact .bind (scheduleUniform_kernel _ _ _) fun _ => .pure _

theorem useUniform_kernel (group : String) (u : UniformEntry) :
    Law.kernel.Keeps env (useUniform group u) := by
  have declare : Law.kernel.Keeps env (modifyHere fun b =>
      { b with groups := appendNew b.groups group }) := kernel_modifyHere fun _ => rfl
  refine .bind (groupEntry_kernel _) fun g => ?_
  refine .ite (fun _ => ?_) fun _ => .bind declare fun _ => .pure _
  refine .bind (claimBinding_kernel _) fun binding => ?_
  exact .bind (putGroup_kernel _ _) fun _ => .bind declare fun _ => .pure _

/-! ### Textures, storage buffers, attributes and built-in inputs -/

theorem registerTexture_kernel (name : String) : Law.kernel.Keeps env (registerTexture name) := by
  refine .get fun s => ?_
  split
  · exact .pure _
  · refine .bind (claimGlobal_kernel _) fun texture => .bind (claimGlobal_kernel _) fun sampler => ?_
    exact .bind (kernel_ofModify fun _ => rfl) fun _ => .pure _

theorem useTexture_kernel (name : String) : Law.kernel.Keeps env (useTexture name) := by
  have declare : Law.kernel.Keeps env (modifyHere fun b =>
      { b with textures := appendNew b.textures name }) := kernel_modifyHere fun _ => rfl
  refine .bind (registerTexture_kernel _) fun t => ?_
  refine .ite (fun _ => ?_) fun _ => .bind declare fun _ => .pure _
  refine .bind (claimBinding_kernel _) fun binding => ?_
  exact .bind (kernel_ofModify fun _ => rfl) fun _ => .bind declare fun _ => .pure _

theorem registerStorage_kernel (name : String) (element : ValueType) (count : Option UInt32)
    (access : Access) : Law.kernel.Keeps env (registerStorage name element count access) := by
  refine .get fun s => ?_
  split
  · refine .when (fun _ => .fail rfl) fun _ => ?_
    exact .bind (kernel_ofModify fun _ => rfl) fun _ => .pure _
  · refine .when (fun _ => .fail rfl) fun _ => ?_
    refine .bind (claimGlobal_kernel _) fun emitted => .bind (claimGlobal_kernel _) fun block => ?_
    exact .bind (kernel_ofModify fun _ => rfl) fun _ => .pure _

theorem useStorage_kernel (name : String) (b : StorageEntry) :
    Law.kernel.Keeps env (useStorage name b) := by
  have declare : Law.kernel.Keeps env (do
      markType b.element
      modifyHere fun h => { h with storage := appendNew h.storage name }
      return Expr.reference (.storage b.name)) :=
    .bind (markType_kernel _) fun _ => .bind (kernel_modifyHere fun _ => rfl) fun _ => .pure _
  refine .ite (fun _ => .bind (claimBinding_kernel _) fun binding => ?_) fun _ => declare
  exact .bind (kernel_ofModify fun _ => rfl) fun _ => declare

theorem registerAttribute_kernel (name : String) (explicit : Option ValueType) :
    Law.kernel.Keeps env (registerAttribute name explicit) := by
  refine .bind (.attributeType name explicit) fun type => ?_
  refine .when (fun _ => .fail rfl) fun _ => .get fun s => ?_
  split
  · exact .when (fun _ => .fail rfl) fun _ => .pure _
  · refine .bind (claimGlobal_kernel _) fun emitted => ?_
    exact .bind (kernel_ofModify fun _ => rfl) fun _ => .pure _

theorem useAttribute_kernel (name : String) (explicit : Option ValueType) :
    Law.kernel.Keeps env (useAttribute name explicit) := by
  refine .bind (registerAttribute_kernel _ _) fun a => ?_
  refine .when (fun _ => kernel_ofModify fun _ => rfl) fun _ => ?_
  exact .bind (kernel_modifyHere fun _ => rfl) fun _ => .pure _

theorem useBuiltin_kernel (b : Builtin) : Law.kernel.Keeps env (useBuiltin b) := by
  refine .bind .stage fun t => .when (fun _ => .fail rfl) fun _ => ?_
  exact .bind (kernel_modifyHere fun _ => rfl) fun _ => .pure _

theorem property_kernel (name : String) (type : ValueType) :
    Law.kernel.Keeps env (buildProperty name type) := by
  refine .bind .here fun b => ?_
  split
  · exact .when (fun _ => .fail rfl) fun _ => .pure _
  · refine .bind (useType_kernel type) fun _ => .bind (claimLocal_kernel name) fun emitted => ?_
    refine .bind (kernel_modifyHere fun b => ?_) fun _ => .pure _
    -- the declaration has no first value that could call a function
    have none : Statement.calleesIn [.declare emitted type none .mutable none] = [] := rfl
    unfold StageBuild.kernel Statement.calleesIn
    rw [Statement.collectIn_append]
    exact congrArg _ ((congrArg _ none).trans (List.append_nil _))

/-- What enters and uses inputs leaves the kernel alone. -/
theorem kernel_plain : Law.kernel.Plain where
  registerUniform := registerUniform_kernel
  useUniform := useUniform_kernel
  registerTexture := registerTexture_kernel
  useTexture := useTexture_kernel
  registerStorage name element count access _ :=
    (registerStorage_kernel name element count access _ trivial).and (registerStorage_entry _ _ _ _)
  useStorage name b _ _ := useStorage_kernel name b _ trivial
  registerAttribute := registerAttribute_kernel
  useAttribute name type _ := useAttribute_kernel name type
  useBuiltin := useBuiltin_kernel
  property := property_kernel
  useType := useType_kernel

end Build

open Build in
/-- What enters and uses inputs keeps to a law if it keeps to another one that, with the kernel left
alone, says as much. -/
theorem Law.Plain.withKernel {L L' : Law} (h : L'.Plain)
    (inv : ∀ {env s}, L.inv env s → L'.inv env s)
    (rel : ∀ {s s'}, L'.rel [] s s' → s'.kernel = s.kernel → L.rel [] s s')
    (ends : ∀ f, L.ends f) : L.Plain := by
  have keeps : ∀ {α : Type} {env} {step : Build α}, L'.Keeps env step → Law.kernel.Keeps env step →
      L.Keeps env step := fun hs hk s hi =>
    ((hs s (inv hi)).and (hk s trivial)).mono (fun f _ => ends f) fun _ _ hr => rel hr.1 hr.2
  exact {
    registerUniform := fun id name type group update value =>
      keeps (h.registerUniform id name type group update value)
        (kernel_plain.registerUniform id name type group update value)
    useUniform := fun group u => keeps (h.useUniform group u) (kernel_plain.useUniform group u)
    registerTexture := fun name => keeps (h.registerTexture name) (kernel_plain.registerTexture name)
    useTexture := fun name => keeps (h.useTexture name) (kernel_plain.useTexture name)
    registerStorage := fun name element count access hi =>
      ((h.registerStorage name element count access (inv hi)).and
        (kernel_plain.registerStorage name element count access trivial)).mono (fun f _ => ends f)
          fun _ _ hr => ⟨rel hr.1.1 hr.2.1, hr.1.2⟩
    useStorage := fun name b hi hb =>
      ((h.useStorage name b (inv hi) hb).and (kernel_plain.useStorage name b trivial hb)).mono
        (fun f _ => ends f) fun _ _ hr => rel hr.1 hr.2
    registerAttribute := fun name type =>
      keeps (h.registerAttribute name type) (kernel_plain.registerAttribute name type)
    useAttribute := fun name type hs =>
      keeps (h.useAttribute name type hs) (kernel_plain.useAttribute name type hs)
    useBuiltin := fun b => keeps (h.useBuiltin b) (kernel_plain.useBuiltin b)
    property := fun name type => keeps (h.property name type) (kernel_plain.property name type)
    useType := fun type => keeps (h.useType type) (kernel_plain.useType type) }

/-! ## Calls and the functions that a stage lists -/

open Relation

/-- A native function includes another. -/
def Graph.Includes (g : Graph) (f i : FunctionId) : Prop :=
  ∃ native, g.function? f = some native ∧ i ∈ native.includes

/-- The native functions that the code of a stage calls. -/
def StageBuild.callees (b : StageBuild) : List String :=
  Statement.calleesIn b.locals ++ b.collect Statement.callees

namespace StageBuild

variable {b : StageBuild} {st : Statement} {n : String}

theorem callees_of_kernel {b' : StageBuild} (h : b'.kernel = b.kernel) : b'.callees = b.callees := by
  have inner : b'.inner = b.inner := congrArg StageKernel.inner h
  have outer : b'.outer = b.outer := congrArg StageKernel.outer h
  have top : Statement.calleesIn b'.locals = Statement.calleesIn b.locals :=
    congrArg StageKernel.callees h
  unfold callees collect
  rw [inner, outer, top]

theorem mem_callees_add : n ∈ (b.add st).callees ↔
    n ∈ b.callees ∨ n ∈ st.callees ∨ n ∈ Statement.calleesIn st.blocks := by
  unfold callees
  rw [locals_add, List.mem_append, collect_add.mem_iff, List.mem_append, Statement.collect_eq,
    List.mem_append, List.mem_append, or_assoc]
  rfl

theorem callees_openBlock : b.openBlock.callees = b.callees := by
  unfold callees
  rw [collect_openBlock]
  rfl

theorem mem_callees_closeBlock : n ∈ b.callees ↔
    n ∈ b.closeBlock.callees ∨ n ∈ Statement.calleesIn b.innerStatements := by
  unfold callees
  rw [List.mem_append, ← collect_closeBlock, List.mem_append, List.mem_append, or_left_comm,
    or_comm (a := n ∈ Statement.collectIn _ _)]
  rfl

end StageBuild

namespace BuildState

variable {p : Plan} {e : Stage} {s s' s'' : BuildState} {ns ns' : List String}
  {fs fs' : List FunctionId}

/-- The native functions that a stage lists. -/
def listed (s : BuildState) (t : Stage) : List FunctionId := (s.stages.get t).functions

/-- A stage lists a function under a name. -/
def Offers (s : BuildState) (t : Stage) (n : String) : Prop :=
  ∃ id ∈ s.listed t, s.calledAs id = some n

/-- The code of a stage calls a function under a name, where statements that call `ns` belong to no
open block of the stage `e` yet. -/
def Calls (s : BuildState) (e : Stage) (ns : List String) (t : Stage) (n : String) : Prop :=
  n ∈ (s.stages.get t).callees ∨ t = e ∧ n ∈ ns

/-- What a part of a build in the stage `e` does to calls and to lists of functions. Statements that
call `ns` belong to no open block yet, and the functions `fs` are still to be called. -/
structure Links (p : Plan) (e : Stage) (ns : List String) (fs : List FunctionId)
    (s s' : BuildState) : Prop where
  enters : s.Enters p s'
  transcribed : s.Transcribed p → s'.Transcribed p
  ordered : ∀ t, NeedsFirst p.graph.Includes (s.listed t) → NeedsFirst p.graph.Includes (s'.listed t)
  grows : ∀ t, s.listed t ⊆ s'.listed t
  calls : ∀ t, ∀ n ∈ (s.stages.get t).callees, s'.Calls e ns t n
  /-- What is called anew is listed. -/
  offered : ∀ t n, s'.Calls e ns t n → n ∈ (s.stages.get t).callees ∨ s'.Offers t n
  /-- What is listed anew is needed by something that is called, or is to be called. -/
  needed : ∀ t, ∀ id ∈ s'.listed t, id ∈ s.listed t ∨ ∃ c,
    ReflTransGen p.graph.Includes c id ∧
      (t = e ∧ c ∈ fs ∨ c ∈ s'.listed t ∧ ∃ n, s'.calledAs c = some n ∧ s'.Calls e ns t n)
  outputs : ∀ t, Build.SilentCode (s.stages.get t).output → Build.SilentCode (s'.stages.get t).output

namespace Links

/-- A change that neither lists a function nor calls one. -/
theorem of_same (h : s.Enters p s') (ht : s.Transcribed p → s'.Transcribed p)
    (hl : ∀ t, s'.listed t = s.listed t)
    (hc : ∀ t, (s'.stages.get t).callees = (s.stages.get t).callees)
    (ho : ∀ t, Build.SilentCode (s.stages.get t).output → Build.SilentCode (s'.stages.get t).output) :
    s.Links p e [] [] s' where
  enters := h
  transcribed := ht
  ordered t hs := hl t ▸ hs
  grows t := hl t ▸ List.Subset.refl _
  calls t _ hn := .inl (hc t ▸ hn)
  offered t _ hn := .inl (hc t ▸ hn.resolve_right fun h => nomatch h.2)
  needed t _ hid := .inl (hl t ▸ hid)
  outputs := ho

theorem of_kernel (h : s.Enters p s') (hk : s'.kernel = s.kernel) : s.Links p e [] [] s' := by
  have stage : ∀ t, (s'.stages.get t).kernel = (s.stages.get t).kernel :=
    fun t => congrFun (congrArg Kernel.stages hk) t
  have transcribed : s.Transcribed p → s'.Transcribed p := fun ht =>
    ht.of_taken (Build.functions_of_kernel hk) h.taken
  refine of_same h transcribed (fun t => congrArg StageKernel.functions (stage t))
    (fun t => StageBuild.callees_of_kernel (stage t)) fun t ho => ?_
  · rw [show (s'.stages.get t).output = _ from congrArg StageKernel.output (stage t)]
    exact ho

/-- A change that the stages do not see. -/
theorem of_stages (h : s.Enters p s') (ht : s.Transcribed p → s'.Transcribed p)
    (hs : s'.stages = s.stages) : s.Links p e [] [] s' := by
  refine of_same h ht (fun t => ?_) (fun t => ?_) fun t ho => ?_
  · rw [listed, hs]
    rfl
  · rw [hs]
  · rw [hs]
    exact ho

theorem refl (s : BuildState) : s.Links p e [] [] s := of_kernel (.refl s) rfl

theorem offers (h : s.Links p e ns fs s') {t : Stage} {n : String} (hn : s.Offers t n) :
    s'.Offers t n := by
  obtain ⟨id, hid, hname⟩ := hn
  exact ⟨id, h.grows t hid, h.enters.called hname⟩

theorem trans (h : s.Links p e ns fs s') (h' : s'.Links p e ns' fs' s'') :
    s.Links p e (ns ++ ns') (fs ++ fs') s'' := by
  have calls : ∀ {t n}, s'.Calls e ns t n → s''.Calls e (ns ++ ns') t n := by
    rintro t n (hn | ⟨ht, hn⟩)
    · exact (h'.calls t n hn).imp_right fun h => ⟨h.1, List.mem_append_right _ h.2⟩
    · exact .inr ⟨ht, List.mem_append_left _ hn⟩
  have calls' : ∀ {t n}, s''.Calls e ns' t n → s''.Calls e (ns ++ ns') t n := fun hn =>
    hn.imp_right fun h => ⟨h.1, List.mem_append_right _ h.2⟩
  refine ⟨h.enters.trans h'.enters, h'.transcribed ∘ h.transcribed, fun t => h'.ordered t ∘ h.ordered t,
    fun t => List.Subset.trans (h.grows t) (h'.grows t), fun t n hn => calls (h.calls t n hn),
    fun t n hn => ?_, fun t id hid => ?_, fun t => h'.outputs t ∘ h.outputs t⟩
  · have before : s'.Calls e ns t n → n ∈ (s.stages.get t).callees ∨ s''.Offers t n :=
      fun hn => (h.offered t n hn).imp_right h'.offers
    rcases hn with hn | ⟨ht, hn⟩
    · exact (h'.offered t n (.inl hn)).elim (fun hn => before (.inl hn)) .inr
    rcases List.mem_append.1 hn with hn | hn
    · exact before (.inr ⟨ht, hn⟩)
    · exact (h'.offered t n (.inr ⟨ht, hn⟩)).elim (fun hn => before (.inl hn)) .inr
  · rcases h'.needed t id hid with hid | ⟨c, reach, ⟨ht, hc⟩ | ⟨hc, n, hn, hcall⟩⟩
    · rcases h.needed t id hid with hid | ⟨c, reach, ⟨ht, hc⟩ | ⟨hc, n, hn, hcall⟩⟩
      · exact .inl hid
      · exact .inr ⟨c, reach, .inl ⟨ht, List.mem_append_left _ hc⟩⟩
      · exact .inr ⟨c, reach, .inr ⟨h'.grows t hc, n, h'.enters.called hn, calls hcall⟩⟩
    · exact .inr ⟨c, reach, .inl ⟨ht, List.mem_append_right _ hc⟩⟩
    · exact .inr ⟨c, reach, .inr ⟨hc, n, hn, calls' hcall⟩⟩

/-- The stage around does not matter where all statements belong to open blocks. -/
theorem anywhere (h : s.Links p e [] [] s') (e' : Stage) : s.Links p e' [] [] s' := by
  have calls : ∀ {t n}, s'.Calls e [] t n → s'.Calls e' [] t n :=
    fun hn => .inl (hn.resolve_right fun h => nomatch h.2)
  refine { h with
    calls := fun t n hn => calls (h.calls t n hn)
    offered := fun t n hn => h.offered t n (.inl (hn.resolve_right fun h => nomatch h.2))
    needed := fun t id hid => (h.needed t id hid).imp_right ?_ }
  rintro ⟨c, reach, ⟨-, hc⟩ | ⟨hc, n, hn, hcall⟩⟩
  · cases hc
  · exact ⟨c, reach, .inr ⟨hc, n, hn, calls hcall⟩⟩

/-- What is needed by functions that are still to be called is needed by those that include them. -/
theorem through (h : s.Links p e ns fs s')
    (hf : ∀ c ∈ fs, ∃ d ∈ fs', ReflTransGen p.graph.Includes d c) : s.Links p e ns fs' s' := by
  refine { h with needed := fun t id hid => (h.needed t id hid).imp_right ?_ }
  rintro ⟨c, reach, ⟨ht, hc⟩ | called⟩
  · obtain ⟨d, hd, reach'⟩ := hf c hc
    exact ⟨d, reach'.trans reach, .inl ⟨ht, hd⟩⟩
  · exact ⟨c, reach, .inr called⟩

/-- The code of a stage changes, not the functions that it lists. What it calls anew is listed, and it
calls what is to be called no more. -/
theorem modify {f : StageBuild → StageBuild} (h : s.Links p e ns fs s')
    (hf : ∀ b, (f b).functions = b.functions)
    (keep : ∀ n, n ∈ (s'.stages.get e).callees ∨ n ∈ ns →
      n ∈ (f (s'.stages.get e)).callees ∨ n ∈ ns')
    (new : ∀ n, n ∈ (f (s'.stages.get e)).callees ∨ n ∈ ns' →
      (n ∈ (s'.stages.get e).callees ∨ n ∈ ns) ∨ s'.Offers e n)
    (settle : ∀ c ∈ fs, c ∈ fs' ∨ c ∈ s'.listed e ∧
      ∃ n, s'.calledAs c = some n ∧ n ∈ (f (s'.stages.get e)).callees)
    (ho : ∀ b : StageBuild, Build.SilentCode b.output → Build.SilentCode (f b).output) :
    s.Links p e ns' fs' { s' with stages := s'.stages.modify e f } := by
  let changed : BuildState := { s' with stages := s'.stages.modify e f }
  have listed : ∀ t, changed.listed t = s'.listed t := fun t => s'.stages.map_get_modify e t hf
  have here : (changed.stages.get e).callees = (f (s'.stages.get e)).callees := by
    rw [PerStage.get_modify, if_pos rfl]
  have there : ∀ {t}, t ≠ e → changed.stages.get t = s'.stages.get t := fun ht => by
    rw [PerStage.get_modify, if_neg ht]
  have calls : ∀ {t n}, s'.Calls e ns t n → changed.Calls e ns' t n := by
    intro t n hn
    by_cases ht : t = e
    · subst ht
      exact (keep n (hn.imp_right And.right)).imp (fun h => here ▸ h) fun h => ⟨rfl, h⟩
    · refine .inl ?_
      rw [there ht]
      exact hn.resolve_right fun h => ht h.1
  have offers : ∀ {t n}, s'.Offers t n → changed.Offers t n := fun ⟨id, hid, hname⟩ =>
    ⟨id, (listed _).symm ▸ hid, hname⟩
  refine ⟨h.enters.trans (.of_eq rfl rfl rfl rfl rfl), h.transcribed,
    fun t hs => (listed t).symm ▸ h.ordered t hs, fun t => (listed t).symm ▸ h.grows t,
    fun t n hn => calls (h.calls t n hn), fun t n hn => ?_, fun t id hid => ?_, fun t hs => ?_⟩
  · by_cases ht : t = e
    · subst ht
      rcases new n (hn.imp (fun h => here ▸ h) And.right) with before | offered
      · exact (h.offered t n (before.imp_right fun h => ⟨rfl, h⟩)).imp_right offers
      · exact .inr (offers offered)
    · refine (h.offered t n (.inl ?_)).imp_right offers
      rw [← there ht]
      exact hn.resolve_right fun h => ht h.1
  · rw [listed] at hid
    refine (h.needed t id hid).imp_right ?_
    rintro ⟨c, reach, ⟨rfl, hc⟩ | ⟨hc, n, hn, hcall⟩⟩
    · rcases settle c hc with hc | ⟨hc, n, hn, hcall⟩
      · exact ⟨c, reach, .inl ⟨rfl, hc⟩⟩
      · exact ⟨c, reach, .inr ⟨(listed _).symm ▸ hc, n, hn, .inl (here ▸ hcall)⟩⟩
    · exact ⟨c, reach, .inr ⟨(listed _).symm ▸ hc, n, hn, calls hcall⟩⟩
  · by_cases ht : t = e
    · subst ht
      rw [PerStage.get_modify, if_pos rfl]
      exact ho _ (h.outputs t hs)
    · rw [there ht]
      exact h.outputs t hs

/-- A statement is added. What it calls is listed, and it calls all that was to be called. -/
theorem add {st : Statement} (h : s.Links p e (Statement.calleesIn st.blocks) fs s')
    (offered : ∀ n ∈ st.callees, s'.Offers e n)
    (settled : ∀ c ∈ fs, c ∈ s'.listed e ∧ ∃ n, s'.calledAs c = some n ∧ n ∈ st.callees) :
    s.Links p e [] [] { s' with stages := s'.stages.modify e fun b => b.add st } := by
  have functions : ∀ b : StageBuild, (b.add st).functions = b.functions := by
    intro b
    unfold StageBuild.add
    split <;> rfl
  have output : ∀ b : StageBuild, (b.add st).output = b.output := by
    intro b
    unfold StageBuild.add
    split <;> rfl
  refine h.modify functions (fun n hn => ?_) (fun n hn => ?_) (fun c hc => ?_) fun b hb => ?_
  · exact .inl (StageBuild.mem_callees_add.2 (hn.imp_right .inr))
  · rcases StageBuild.mem_callees_add.1 (hn.resolve_right List.not_mem_nil) with hn | hn | hn
    · exact .inl (.inl hn)
    · exact .inr (offered n hn)
    · exact .inl (.inr hn)
  · obtain ⟨hl, n, hname, hcall⟩ := settled c hc
    exact .inr ⟨hl, n, hname, StageBuild.mem_callees_add.2 (.inr (.inl hcall))⟩
  · rw [output]
    exact hb

/-- A block is closed; its statements are handed over. -/
theorem closeBlock
    (h : ({ s with stages := s.stages.modify e StageBuild.openBlock } : BuildState).Links p e [] []
      s') :
    s.Links p e (Statement.calleesIn (s'.stages.get e).innerStatements) []
      { s' with stages := s'.stages.modify e StageBuild.closeBlock } := by
  have opened : s.Links p e [] [] { s with stages := s.stages.modify e StageBuild.openBlock } := by
    refine (refl s).modify (fun _ => rfl) (fun n hn => ?_) (fun n hn => .inl ?_)
      (fun _ hc => .inl hc) fun _ h => h
    · rwa [StageBuild.callees_openBlock]
    · rwa [StageBuild.callees_openBlock] at hn
  refine (opened.trans h).modify (fun _ => rfl) (fun n hn => ?_) (fun n hn => .inl (.inl ?_))
    (fun _ hc => .inl hc) fun _ h => h
  · exact StageBuild.mem_callees_closeBlock.1 (hn.resolve_right List.not_mem_nil)
  · exact StageBuild.mem_callees_closeBlock.2 hn

/-- A function that is to be called is listed behind those that it includes. -/
theorem list {f : FunctionId} (h : s.Links p e ns fs s') (hf : f ∈ fs)
    (included : ∀ i, p.graph.Includes f i → i ∈ s'.listed e) :
    s.Links p e ns fs { s' with stages := s'.stages.modify e fun b =>
      { b with functions := appendNew b.functions f } } := by
  let changed : BuildState := { s' with stages := s'.stages.modify e fun b =>
    { b with functions := appendNew b.functions f } }
  have here : changed.listed e = appendNew (s'.listed e) f := by
    rw [listed, PerStage.get_modify, if_pos rfl]
    rfl
  have there : ∀ {t}, t ≠ e → changed.listed t = s'.listed t := fun ht => by
    rw [listed, PerStage.get_modify, if_neg ht]
    rfl
  have code : ∀ t, (changed.stages.get t).callees = (s'.stages.get t).callees :=
    fun t => s'.stages.map_get_modify e t fun _ => rfl
  have output : ∀ t, (changed.stages.get t).output = (s'.stages.get t).output :=
    fun t => s'.stages.map_get_modify e t fun _ => rfl
  have calls : ∀ {t n}, changed.Calls e ns t n ↔ s'.Calls e ns t n := fun {t n} => by
    rw [Calls, Calls, code]
  have mem : ∀ {t id}, id ∈ changed.listed t ↔ id ∈ s'.listed t ∨ t = e ∧ id = f := by
    intro t id
    by_cases ht : t = e
    · subst ht
      rw [here, mem_appendNew]
      simp
    · rw [there ht]
      simp [ht]
  refine ⟨h.enters.trans (.of_eq rfl rfl rfl rfl rfl), h.transcribed, fun t hs => ?_,
    fun t id hid => mem.2 (.inl (h.grows t hid)), fun t n hn => calls.2 (h.calls t n hn),
    fun t n hn => ?_, fun t id hid => ?_, fun t hs => (output t).symm ▸ h.outputs t hs⟩
  · by_cases ht : t = e
    · subst ht
      exact here ▸ (h.ordered t hs).appendNew included
    · exact there ht ▸ h.ordered t hs
  · exact (h.offered t n (calls.1 hn)).imp_right fun ⟨id, hid, hname⟩ => ⟨id, mem.2 (.inl hid), hname⟩
  · rcases mem.1 hid with hid | ⟨rfl, rfl⟩
    · refine (h.needed t id hid).imp_right ?_
      rintro ⟨c, reach, todo | ⟨hc, n, hn, hcall⟩⟩
      · exact ⟨c, reach, .inl todo⟩
      · exact ⟨c, reach, .inr ⟨mem.2 (.inl hc), n, hn, calls.2 hcall⟩⟩
    · exact .inr ⟨id, .refl, .inl ⟨rfl, hf⟩⟩

end Links

end BuildState

end ShaderGraph
