import ShaderGraph.Proofs.Entered
import ShaderGraph.Proofs.Linking

/-!
# Calls in the code of nodes

Generation keeps to `BuildState.Links`: a call lists its function before the arguments are generated,
and stands in the code in the end.
-/

namespace ShaderGraph

open Relation

/-- What generation in the stage `e` keeps to. -/
def Law.linking (p : Plan) (e : Stage) : Law where
  inv env s := env.plan = p ∧ env.stage = e ∧ s.Named p ∧ s.Transcribed p
  rel ss s s' := s.Links p e (Statement.calleesIn ss) [] s'
  ends _ := True
  refl := .refl
  trans {ss ss' s s' s''} h h' := by
    show s.Links p e (Statement.calleesIn (ss ++ ss')) [] s''
    rw [Statement.calleesIn, Statement.collectIn_append]
    exact h.trans h'
  mono hi hr := ⟨hi.1, hi.2.1, hr.enters.named hi.2.2.1, hr.transcribed hi.2.2.2⟩
  loops _ hi := hi
  ordinary _ := trivial
  located _ := trivial

/-- What reading functions keeps to: the stages stay as they are. -/
def Law.transcribing (p : Plan) : Law where
  inv env _ := env.plan = p
  rel _ s s' := s'.stages = s.stages ∧ (s.Transcribed p → s'.Transcribed p)
  ends _ := True
  refl _ := ⟨rfl, id⟩
  trans h h' := ⟨h'.1.trans h.1, h'.2 ∘ h.2⟩
  mono hi _ := hi
  loops _ hi := hi
  ordinary _ := trivial
  located _ := trivial

namespace Build

open Law BuildState

variable {p : Plan} {e : Stage} {env : Env} {s s' : BuildState} {id : NodeId} {α : Type}

theorem linking_mono {ns : List String} {fs : List FunctionId}
    (hi : (Law.linking p e).inv env s) (h : s.Links p e ns fs s') :
    (Law.linking p e).inv env s' :=
  ⟨hi.1, hi.2.1, h.enters.named hi.2.2.1, h.transcribed hi.2.2.2⟩

/-! ### Reading functions -/

theorem registerFunction_transcribing (f : FunctionId) :
    (Law.transcribing p).Keeps env (registerFunction f) :=
  fun _ hp => registerFunction_transcribed f hp

theorem transcribing_indifferent : (Law.transcribing p).Indifferent where
  ends _ := trivial
  surroundings hi hp _ := hp.trans hi
  types _ _ _ := ⟨rfl, fun h => h⟩
  functions := registerFunction_transcribing

theorem registerVarying_transcribing (id source : NodeId) (name : Option String)
    (interpolation : Interpolation) (sampling : Option Sampling) :
    (Law.transcribing p).Keeps env (registerVarying id source name interpolation sampling) := by
  have claim : (Law.transcribing p).Keeps env (claimVarying name) := fun s _ =>
    meets_claimVarying fun n counter _ =>
      ⟨rfl, fun ht => ht.of_taken rfl fun _ => isUsed_reserve_of_isUsed⟩
  refine .get fun s => ?_
  split
  · exact .pure _
  refine .bind .stage fun t => .when (fun _ => .fail rfl) fun _ => ?_
  refine .read (.when (fun _ => .fail rfl) fun _ => ?_)
  refine .bind (typeOf_indifferent transcribing_indifferent source) fun type => ?_
  refine .when (fun _ => .fail rfl) fun _ => .bind claim fun emitted => ?_
  exact .bind (fun _ _ => ⟨rfl, fun h => h⟩) fun _ => .pure _

theorem locateVarying_transcribing (id : NodeId) (v : VaryingEntry) :
    (Law.transcribing p).Keeps env (locateVarying id v) := by
  intro s _
  unfold locateVarying
  rw [meets_modify]
  split <;> exact ⟨rfl, fun h => h⟩

/-- Reading a function lists nothing. -/
theorem registerFunction_links (hi : (Law.linking p e).inv env s) (f : FunctionId) :
    Meets (registerFunction f) env s (fun _ => True) fun entry s' =>
      s.Links p e [] [] s' ∧ s'.functions.get? f = some entry :=
  ((registerFunction_listing f hi.1).and (registerFunction_transcribing f s hi.1)).imp
    fun _ _ h => ⟨.of_stages h.1.1.toEnters h.2.2 h.2.1, h.1.2⟩

/-! ### Inputs and names -/

theorem linking_plain : (Law.linking p e).Plain := by
  have names : (Law.avoiding p .empty).Plain := avoiding_closed.toPlain
  refine names.withKernel (fun hi => ⟨hi.1, hi.2.2.1, fun n hn => ?_⟩) (fun hr hk => ?_)
    fun _ => trivial
  · exact absurd hn (by simp [NameTable.isUsed, NameTable.empty])
  · exact .of_kernel hr.enters hk

/-- A change of the current stage that leaves its kernel alone. -/
theorem linking_modifyHere {f : StageBuild → StageBuild} (h : ∀ b, (f b).kernel = b.kernel) :
    (Law.linking p e).Keeps env (modifyHere f) :=
  fun s _ => .of_kernel (.of_eq rfl rfl rfl rfl rfl) (kernel_modify s env.stage h)

/-- A change that items, functions and stages do not see. -/
theorem linking_modify {f : BuildState → BuildState}
    (h : ∀ s, s.Enters p (f s) ∧ (f s).functions = s.functions ∧ (f s).stages = s.stages) :
    (Law.linking p e).Keeps env (modify f) := by
  intro s _
  obtain ⟨enters, functions, stages⟩ := h s
  exact .of_stages enters (fun ht => ht.of_taken functions enters.taken) stages

theorem inBlock_linking {step : Build Unit} (h : (Law.linking p e).Keeps env step) :
    (Law.linking p e).Leaves env (inBlock step) := by
  rintro s ⟨plan, rfl, named, transcribed⟩
  unfold inBlock
  rw [meets_bind, meets_modifyHere, meets_bind]
  have opened : s.Enters p { s with stages := s.stages.modify env.stage StageBuild.openBlock } :=
    .of_eq rfl rfl rfl rfl rfl
  refine (h _ ⟨plan, rfl, opened.named named, transcribed⟩).imp fun _ s' hr => ?_
  rw [meets_bind, meets_here, meets_bind, meets_modifyHere, meets_pure]
  exact Links.closeBlock hr

theorem linking_callfree : (Law.linking p e).Callfree where
  toPlain := linking_plain
  claimLocal _ := .ofKeeps (fun s _ => .of_kernel (.of_eq rfl rfl rfl rfl rfl)
    (kernel_modify s _ fun _ => rfl)) fun _ => trivial
  releaseLocal _ := linking_modifyHere fun _ => rfl
  claimTemp := .ofKeeps (fun s _ => .of_kernel (.of_eq rfl rfl rfl rfl rfl)
    (kernel_modify s _ fun _ => rfl)) fun _ => trivial
  bindValue _ _ _ := .read (.read (.bind .here fun _ =>
    linking_modify fun _ => ⟨.of_eq rfl rfl rfl rfl rfl, rfl, rfl⟩))
  add hi _ hc hr := by
    obtain ⟨-, rfl, -⟩ := hi
    exact hr.add (fun n hn => nomatch hc ▸ hn) fun _ hf => nomatch hf
  inBlock := inBlock_linking

theorem linking_unscoped : (Law.linking p e).Unscoped where
  ends _ := trivial
  surroundings hi hp hs := ⟨hp.trans hi.1, hs.trans hi.2.1, hi.2.2⟩
  types _ _ _ := .of_stages (.of_eq rfl rfl rfl rfl rfl) (fun h => h) rfl
  functions f _ hi := (registerFunction_links hi f).imp fun _ _ h => h.1
  scopes _ _ _ := .of_stages (.of_eq rfl rfl rfl rfl rfl) (fun h => h) rfl

/-! ### Calls -/

theorem markType_linking (t : ValueType) : (Law.linking p e).Keeps env (markType t) :=
  fun s hi => ((markType_listing t s hi.1).and (markType_kernel t s trivial)).imp fun _ _ hr =>
    .of_kernel hr.1.toEnters hr.2

/-- A function is listed behind those that it includes. -/
theorem useFunctionIn_links {fuel : Nat} {f : FunctionId} (hi : (Law.linking p e).inv env s) :
    Meets (useFunctionIn fuel f) env s (fun _ => True) fun _ s' =>
      s.Links p e [] [f] s' ∧ f ∈ s'.listed e := by
  induction fuel generalizing f s with
  | zero => trivial
  | succ fuel ih =>
    rw [useFunctionIn, meets_bind]
    refine (registerFunction_links hi f).imp ?_
    rintro entry s₁ ⟨register, found⟩
    have hi₁ := linking_mono hi register
    obtain ⟨native, r, known, writes, -⟩ := hi₁.2.2.2 f entry found
    have includes : entry.includes = native.includes := writes.includes
    have pending : s.Links p e [] [f] s₁ := register.through fun _ h => absurd h List.not_mem_nil
    rw [meets_bind, meets_here, meets_ite, hi.2.1]
    refine ⟨fun hc => ⟨pending, List.contains_iff_mem.1 hc⟩, fun _ => ?_⟩
    -- what is listed for a function that `f` includes, `f` needs as well
    have all : Meets (entry.includes.forM (useFunctionIn fuel)) env s₁ (fun _ => True) fun _ s' =>
        s.Links p e [] [f] s' ∧ ∀ i ∈ entry.includes, i ∈ s'.listed e := by
      refine meets_forM (fun done s' => s.Links p e [] [f] s' ∧ ∀ i ∈ done, i ∈ s'.listed e)
        ⟨pending, fun _ h => absurd h List.not_mem_nil⟩ ?_
      rintro done i s' hmem ⟨links, listed⟩
      have step : p.graph.Includes f i := ⟨native, known, includes ▸ hmem⟩
      refine (ih (linking_mono hi links)).imp fun _ s'' hr => ⟨?_, fun j hj => ?_⟩
      · refine (links.trans hr.1).through fun c hc => ⟨f, .head _, ?_⟩
        rcases List.mem_append.1 hc with hc | hc
        · exact List.mem_singleton.1 hc ▸ .refl
        · exact List.mem_singleton.1 hc ▸ .single step
      · rcases List.mem_append.1 hj with hj | hj
        · exact hr.1.grows e (listed j hj)
        · exact List.mem_singleton.1 hj ▸ hr.2
    rw [forIn_eq_forM, meets_bind]
    refine all.imp ?_
    rintro _ s₂ ⟨links, listed⟩
    have types : (Law.linking p e).Keeps env (do
        for q in entry.inputs do markType q.valueType
        markType entry.result) :=
      .bind (.forIn fun q _ => markType_linking _) fun _ => markType_linking _
    rw [← bind_assoc, meets_bind]
    refine (types s₂ (linking_mono hi links)).imp fun _ s₃ hr => ?_
    rw [meets_modifyHere, hi.2.1]
    have done : s.Links p e [] [f] s₃ := links.trans hr
    refine ⟨done.list (.head _) ?_, ?_⟩
    · rintro i ⟨native', known', hmem⟩
      cases known.symm.trans known'
      exact hr.grows e (listed i (includes ▸ hmem))
    · rw [BuildState.listed, PerStage.get_modify, if_pos rfl]
      exact mem_appendNew.2 (.inr rfl)

theorem useFunction_links {f : FunctionId} (hi : (Law.linking p e).inv env s) :
    Meets (useFunction f) env s (fun _ => True) fun _ s' =>
      s.Links p e [] [f] s' ∧ f ∈ s'.listed e := by
  unfold useFunction includeDepth
  rw [meets_bind, meets_bind, meets_read, meets_pure]
  exact useFunctionIn_links hi

/-- A function is listed under a name and is still to be called. -/
structure Pending (p : Plan) (e : Stage) (f : FunctionId) (name : String) (s s' : BuildState) :
    Prop where
  links : s.Links p e [] [f] s'
  listed : f ∈ s'.listed e
  named : s'.calledAs f = some name

namespace Pending

variable {f : FunctionId} {name : String} {s'' : BuildState}

theorem trans (h : Pending p e f name s s') (h' : s'.Links p e [] [] s'') :
    Pending p e f name s s'' where
  links := h.links.trans h'
  listed := h'.grows e h.listed
  named := h'.enters.called h.named

/-- The function is called. -/
theorem call {st : Statement} (h : Pending p e f name s s') (hc : st.callees = [name])
    (hb : st.blocks = []) :
    s.Links p e [] [] { s' with stages := s'.stages.modify e fun b => b.add st } := by
  have links : s.Links p e (Statement.calleesIn st.blocks) [f] s' := by
    rw [hb]
    exact h.links
  refine links.add (fun n hn => ⟨f, h.listed, ?_⟩) fun c hf => ?_
  · rw [hc, List.mem_singleton] at hn
    rw [h.named, hn]
  · rw [List.mem_singleton.1 hf]
    exact ⟨h.listed, name, h.named, hc ▸ .head _⟩

end Pending

/-- The function of a call is listed and called. -/
theorem buildCall_linking {g : Generator} (hg : g.Silent) (hr : (Law.linking p e).Runs g)
    {n : Node} (hn : env.plan.node id = .ok n) (hs : n.isSpecial = false) (f : FunctionId)
    (args : List NodeId) : (Law.linking p e).Keeps env (buildCall g id f args) := by
  refine .bind (.boundName? id) fun bound => ?_
  split
  · exact .pure _
  intro s hi
  rw [meets_bind]
  refine (registerFunction_links hi f).imp ?_
  rintro entry s₁ ⟨register, found⟩
  refine meets_check fun _ => ?_
  rw [meets_bind]
  have name : s₁.calledAs f = some entry.name := by rw [calledAs, found, Option.map_some]
  have hi₁ := linking_mono hi register
  refine (useFunction_links hi₁).imp ?_
  rintro _ s₂ ⟨used, listed⟩
  have pending : Pending p e f entry.name s s₂ :=
    ⟨register.trans used, listed, used.enters.called name⟩
  have arguments : (Law.linking p e).Yields env
      ((args.zip entry.inputs).mapM fun a => buildArgument g entry.name a.1 a.2) Expr.AllSilent :=
    .all fun a _ => Keeps.yields (.buildArgument (hr.serves linking_unscoped.toIndifferent))
      (argument_silent hg entry.name a.1 a.2)
  rw [meets_bind]
  refine (arguments s₂ (linking_mono hi₁ used)).imp ?_
  rintro values s₃ ⟨generated, silent⟩
  have pending₃ := pending.trans generated
  refine (meets_ite _ _ _).2 ⟨fun _ => ?_, fun _ => ?_⟩
  · show s.Links p e [] [] { s₃ with stages := s₃.stages.modify env.stage fun b => b.add _ }
    rw [hi.2.1]
    exact pending₃.call (Statement.call_callees silent) rfl
  · unfold declareTemp
    rw [meets_bind, meets_bind]
    have hi₃ := linking_mono hi pending₃.links
    refine (linking_plain.useType entry.result s₃ hi₃).imp fun _ s₄ spelled => ?_
    rw [meets_bind]
    have temp : (Law.linking p e).Keeps env claimTemp := linking_callfree.claimTemp.keeps
    refine (temp s₄ (linking_mono hi₃ spelled)).imp fun n s₅ claimed => ?_
    have pending₅ := (pending₃.trans spelled).trans claimed
    have callees : (Statement.declare n entry.result (some (.call entry.name values)) .immutable
        none).callees = [entry.name] := Statement.declare_call_callees silent
    have called := pending₅.call callees rfl
    rw [meets_bind]
    unfold addStatement
    rw [meets_modifyHere, hi.2.1, meets_pure, meets_bind]
    have bind : (Law.linking p e).Keeps env (bindValue id n) := linking_callfree.bindValue n hn hs
    exact (bind _ (linking_mono hi called)).imp fun _ _ bound => called.trans bound

/-! ### All nodes -/

theorem declareVariable_linking {value : NodeId} {readOnly : Bool} {name : String}
    {type : ValueType} {init : Expr} (hs : init.Silent) :
    (Law.linking p e).Keeps env (declareVariable id value readOnly name type init) := by
  refine .bind (.mutability value readOnly) fun m => .bind (.recordKey id) fun key => ?_
  refine .bind (fun s hi => ?_) fun _ => .read (.bind .here fun _ =>
    linking_modify fun _ => ⟨.of_eq rfl rfl rfl rfl rfl, rfl, rfl⟩)
  obtain ⟨-, rfl, -⟩ := hi
  have none : (Statement.declare name type (some init) m (some key)).callees = [] :=
    Statement.declare_callees (silentCode_some hs)
  exact (Links.refl s).add (fun n hn => nomatch none ▸ hn) fun _ hf => nomatch hf

theorem inVertex_linking {step : Build Unit}
    (h : (Law.linking p .vertex).Keeps (within env .vertex) step) :
    (Law.linking p e).Keeps env (inStage .vertex step) := by
  refine h.inStage (fun s hi => ⟨?_, stage_within env .vertex, hi.2.2⟩)
    (fun _ _ hr => Links.anywhere hr e) fun _ he => he
  unfold within
  split <;> exact hi.1

theorem buildVarying_linking {g : Generator} (hg : g.Silent)
    (hr : ∀ e, (Law.linking p e).Runs g) {source : NodeId} {name : Option String}
    {interpolation : Interpolation} {sampling : Option Sampling}
    (hn : p.node id = .ok (.varying source name interpolation sampling)) :
    (Law.linking p e).Keeps env (buildVarying g id source name interpolation sampling) := by
  have mark : ∀ {e env}, (Law.linking p e).Keeps env
      (modifyHere fun b => { b with varyings := appendNew b.varyings id }) :=
    linking_modifyHere fun _ => rfl
  have serves : (Law.linking p .vertex).Serves (within env .vertex) g source :=
    (hr .vertex).serves linking_unscoped.toIndifferent
  refine .buildVarying (fun v type => ?_) mark inVertex_linking
    (R := fun v s => v.source = source ∧ s.namesOf (.varying id) = [v.name]) (fun _ _ h => h.1)
    (fun v s s' hr h => ⟨h.1, ?_⟩) (fun s hi => ?_) fun v s _ h => ?_
  · refine .using ((serves.value type).yields (value_silent hg source type)) fun value hs => ?_
    refine .bind (linking_callfree.addPlain (.assign trivial) ?_ rfl) fun _ => mark
    exact Statement.assign_callees (Expr.silent_reference _) hs
  · rw [hr.enters.keep (h.2 ▸ List.cons_ne_nil _ _), h.2]
  · have transcribe := registerVarying_transcribing id source name interpolation sampling s hi.1
    refine ((registerVarying_listing hi.1 hn hi.2.2.1).and transcribe).imp fun v s' h => ?_
    exact ⟨.of_stages h.1.1.toEnters h.2.2 h.2.1, h.1.2⟩
  · next hi =>
    exact ((locateVarying_listing (h.1 ▸ hn) h.2).and (locateVarying_transcribing id v s hi.1)).imp
      fun _ _ h => .of_stages h.1.toEnters h.2.2 h.2.1

/-- Generation keeps to what is said of calls. -/
theorem generator_links (fuel : Nat) (e : Stage) : (Law.linking p e).Runs (generator fuel) := by
  refine generator_runs (L := Law.linking p) (fun _ => linking_unscoped) (fun _ => linking_plain)
    (fun _ _ _ _ _ => (meets_true _).imp fun _ _ _ => trivial) ?_ fuel e
  intro e depth env s id n hr hi hn
  have hg : (generator depth).Silent := generator_silent depth
  have code : (Law.linking p e).Keeps env (generateNode (generator depth) id n) := by
    refine linking_callfree.generateNode hg linking_unscoped (hr e) hn ?_
      (fun _ _ _ _ _ _ hs => declareVariable_linking hs) ?_
    · rintro source name interpolation sampling rfl
      exact buildVarying_linking hg hr (hi.1 ▸ hn)
    · rintro f args rfl
      exact buildCall_linking hg (hr e) hn rfl f args
  refine (code s hi).imp fun _ _ links => links.trans ?_
  exact .of_stages (.of_eq rfl rfl rfl rfl rfl) (fun h => h) rfl

theorem generateRoot_silent (t : Stage) (root : NodeId) :
    Returns SilentCode (generateRoot t root) := by
  refine .bind fun fuel => ?_
  cases t with
  | vertex | fragment =>
    exact .map (value_silent (generator_silent fuel) root .vec4) fun _ => silentCode_some
  | compute => exact .bind fun code => .when fun _ => .pure silentCode_none

theorem generateStage_linking (root : NodeId) : (Law.linking p e).Keeps env (generateStage root) := by
  have generate : ∀ t, (Law.linking p e).Keeps env (generateRoot t root) := fun t =>
    .generateRoot t ((generator_links _ e).serves linking_unscoped.toIndifferent)
  refine .bind .stage fun t => .using ((generate t).yields (generateRoot_silent t root)) ?_
  rintro output silent s ⟨-, rfl, -⟩
  refine (Links.refl s).modify (fun _ => rfl) (fun _ hn => hn) (fun _ hn => .inl hn)
    (fun _ hc => .inl hc) fun _ _ => silent

/-! ### Runs -/

end Build

/-- What a whole build keeps to. -/
def Law.linked (p : Plan) : Law where
  inv env s := env.plan = p ∧ s.Named p ∧ s.Transcribed p
  rel _ s s' := s.Links p .vertex [] [] s'
  ends _ := True
  refl := .refl
  trans := .trans
  mono hi hr := ⟨hi.1, hr.enters.named hi.2.1, hr.transcribed hi.2.2⟩
  loops _ hi := hi
  ordinary _ := trivial
  located _ := trivial

namespace Build

open Law BuildState

variable {p : Plan} {env : Env} {s s' : BuildState} {α : Type} {rs : List (Stage × NodeId)}

theorem linked_of_linking {step : Build α} (h : (Law.linking p env.stage).Keeps env step) :
    (Law.linked p).Keeps env step :=
  fun s hi => (h s ⟨hi.1, rfl, hi.2⟩).imp fun _ _ hr => Links.anywhere hr .vertex

theorem linked_roams : (Law.linked p).Roams where
  ends _ := trivial
  around hi hp _ := ⟨hp.trans hi.1, hi.2⟩
  frames _ _ := .of_stages (.of_eq rfl rfl rfl rfl rfl) (fun h => h) rfl
  scopes _ _ _ := .of_stages (.of_eq rfl rfl rfl rfl rfl) (fun h => h) rfl
  functions f := linked_of_linking (linking_unscoped.functions f)

theorem linked_enters : (Law.linked p).Enters where
  uniform id name type group update value :=
    linked_of_linking (linking_plain.registerUniform id name type group update value)
  texture name := linked_of_linking (linking_plain.registerTexture name)
  storage name element count access := linked_of_linking fun _ hi =>
    (linking_plain.registerStorage name element count access hi).imp fun _ _ h => h.1
  meshAttribute name type := linked_of_linking (linking_plain.registerAttribute name type)

theorem analyze_linked (root : NodeId) : (Law.linked p).Keeps env (analyze root) := by
  refine .read (linked_roams.analyzeIn linked_enters (fun _ _ _ => ?_) ?_ _ root)
  · exact .of_stages (.of_eq rfl rfl rfl rfl rfl) (fun h => h) rfl
  · intro env id source name interpolation sampling hn s hi
    have transcribe := registerVarying_transcribing id source name interpolation sampling s hi.1
    exact ((registerVarying_listing hi.1 (hi.1 ▸ hn) hi.2.1).and transcribe).imp fun _ _ h =>
      .of_stages h.1.1.toEnters h.2.2 h.2.1

/-- What analysis of the roots does to calls and to the functions that stages list. -/
theorem analyze_links (active : List Stage)
    (h : atRoots p active analyze rs (BuildState.start p) = .ok s) :
    (BuildState.start p).Links p .vertex [] [] s := by
  have start : ∀ r ∈ rs, (Law.linked p).inv (Env.root p active r.1) (BuildState.start p) :=
    fun _ _ => ⟨rfl, named_start p, fun _ _ hf => nomatch hf⟩
  have all := Law.Keeps.atRoots start fun r _ => analyze_linked r.2
  rw [h] at all
  exact all

/-- What a run does to calls and to the functions that stages list. -/
theorem run_links (h : run p rs = .ok s) : (BuildState.start p).Links p .vertex [] [] s := by
  obtain ⟨s₀, hanalyze, hgenerate⟩ := of_run h
  have first := analyze_links _ hanalyze
  have middle : ∀ r ∈ rs, (Law.linked p).inv (Env.root p (rs.map Prod.fst) r.1) s₀ :=
    fun _ _ => ⟨rfl, first.enters.named (named_start p), first.transcribed fun _ _ hf => nomatch hf⟩
  have second := Law.Keeps.atRoots middle fun r _ => linked_of_linking (generateStage_linking r.2)
  rw [hgenerate] at second
  exact first.trans second

end Build

end ShaderGraph
