import ShaderGraph.Proofs.ProgramNames
import ShaderGraph.Proofs.Written

/-!
# The code of varyings

Generation adds a statement that writes a varying at each first visit of its node and nowhere else
(`generate_writes`).

What the fragment program reads, the vertex program writes, but where and how often depends on the
visits at the varying: it is written once and in the outermost block exactly when a single visit
came before any answer and no branch or loop of the vertex program was open then
(`writesOnce_iff`).
-/

namespace ShaderGraph

/-- What generation keeps to, as seen by the varying `n` of the node `id` from outside of the
stages. -/
def Law.writes (p : Plan) (id : NodeId) (n : String) : Law where
  inv _ s := s.Named p ∧ s.Kept id ∧ (s.stages.get .vertex).inner = []
  rel _ s s' := s.Writes p id n [] s'
  ends _ := True
  refl := .refl
  trans h h' := h.trans h'
  mono hi hr := by
    refine ⟨hr.enters.named hi.1, hr.kept hi.2.1, ?_⟩
    rw [StageBuild.inner_eq_nil_iff, hr.blocks, ← StageBuild.inner_eq_nil_iff]
    exact hi.2.2
  loops _ hi := hi
  ordinary _ := trivial
  located _ := trivial

/-- What generation keeps to in the stage `e`, as seen by the varying `n` of the node `id`. Only a
visit of a varying writes one. -/
def Law.writing (p : Plan) (id : NodeId) (n : String) (e : Stage) : Law where
  inv env s := env.plan = p ∧ s.Named p ∧ s.Kept id ∧ env.stage = e ∧
    (e ≠ .vertex → (s.stages.get .vertex).inner = [])
  rel ss s s' := s.Writes p id n (if e = .vertex then Statement.writtenIn ss else []) s'
  ends _ := True
  places e := e.varying? = none
  refl s := by
    rw [Statement.writtenIn, Statement.collectIn, ite_self]
    exact .refl s
  trans {ss ss' _ _ _} h h' := by
    have both := h.trans h'
    rw [Statement.writtenIn, Statement.collectIn_append]
    split at both
    · next he =>
      rw [if_pos he]
      exact both
    · next he =>
      rw [if_neg he]
      exact both
  mono hi hr := by
    obtain ⟨plan, named, kept, stage, closed⟩ := hi
    refine ⟨plan, hr.enters.named named, hr.kept kept, stage, fun he => ?_⟩
    rw [StageBuild.inner_eq_nil_iff, hr.blocks, ← StageBuild.inner_eq_nil_iff]
    exact closed he
  loops _ hi := hi
  ordinary _ := trivial
  located _ := trivial
  locals _ := rfl

namespace Build

open Law BuildState

variable {p : Plan} {id m : NodeId} {n : String} {e : Stage} {env : Env} {s s' s'' : BuildState}
  {α : Type} {g : Generator}

/-! ### Single nodes -/

theorem writing_rel : (Law.writing p id n e).rel [] s s' ↔ s.Writes p id n [] s' := by
  show s.Writes p id n (if e = .vertex then Statement.writtenIn [] else []) s' ↔ _
  rw [Statement.writtenIn, Statement.collectIn, ite_self]

theorem writes_of_still (h : s.Lists p s') (hs : s'.still = s.still) : s.Writes p id n [] s' :=
  .of_lists h (congrArg Still.visits hs) (isWritten_of_still hs id)

/-- A change that the lists and the statements do not see. -/
theorem writes_of_eq (hg : s'.globals = s.globals) (hi : s'.namesOf = s.namesOf)
    (hgroups : s'.groups = s.groups) (hf : s'.functions = s.functions)
    (hv : s'.varyings = s.varyings) (hb : s'.bodies = s.bodies) (hvisits : s'.visits = s.visits) :
    s.Writes p id n [] s' := by
  refine .of_lists ⟨.of_eq hg hi hgroups hv hf, hb⟩ hvisits ?_
  unfold isWritten
  rw [hv]

theorem meets_writing {step : Build α} {post : α → BuildState → Prop}
    (h : Meets step env s (fun _ => True) fun a s' => s.Lists p s' ∧ post a s')
    (hs : Law.typing.Keeps env step) :
    Meets step env s (fun _ => True) fun a s' =>
      (Law.writing p id n e).rel [] s s' ∧ post a s' :=
  (h.and (hs s trivial)).imp fun _ _ hr => ⟨writing_rel.2 (writes_of_still hr.1.1 hr.2), hr.1.2⟩

theorem writing_ofListing {step : Build α} (h : (Law.listing p).Keeps env step)
    (hs : Law.typing.Keeps env step) : (Law.writing p id n e).Keeps env step :=
  fun s hi => ((h s hi.1).and (hs s trivial)).imp fun _ _ hr =>
    writing_rel.2 (writes_of_still hr.1 hr.2)

/-- A change of the names in use writes nothing. -/
theorem writing_names {f : StageBuild → StageBuild} {t : Stage}
    (hf : ∀ b, (f b).inner = b.inner ∧ (f b).outer = b.outer ∧ (f b).locals = b.locals ∧
      (f b).varyings = b.varyings) :
    (Law.writing p id n e).rel [] s { s with stages := s.stages.modify t f } := by
  refine writing_rel.2 ((Writes.refl s).modify ?_ (fun b => (hf b).2.2.2) (fun _ => ?_) (fun _ => rfl)
    fun _ => ?_)
  · unfold StageBuild.openBlocks
    rw [(hf _).1, (hf _).2.1]
  · unfold StageBuild.written StageBuild.collect
    rw [(hf _).1, (hf _).2.1, (hf _).2.2.1]
    rfl
  · unfold StageBuild.writtenOutside
    rw [(hf _).2.1, (hf _).2.2.1]

/-- A property is declared at the top of the entry point; that writes nothing. -/
theorem buildProperty_writing (name : String) (type : ValueType) :
    (Law.writing p id n e).Keeps env (buildProperty name type) := by
  refine .bind .here fun b => ?_
  split
  · exact .when (fun _ => .fail rfl) fun _ => .pure _
  refine .bind (writing_ofListing (useType_listing type)
    (typing_ofTables (useType_tables (absurd trivial) type))) fun _ => ?_
  refine .bind (fun s _ => writing_names fun _ => ⟨rfl, rfl, rfl, rfl⟩) fun emitted => ?_
  refine .bind (fun s _ => writing_rel.2 ?_) fun _ => .pure _
  have none : ∀ ss, Statement.writtenIn (ss ++ [.declare emitted type none .mutable none]) =
      Statement.writtenIn ss := by
    intro ss
    rw [Statement.writtenIn, Statement.collectIn_append]
    exact List.append_nil _
  refine (Writes.refl s).modify rfl (fun _ => rfl) (fun _ => ?_) (fun _ => rfl) fun _ => ?_
  · unfold StageBuild.written
    rw [none]
    rfl
  · unfold StageBuild.writtenOutside
    rw [List.append_assoc, List.filterMap_append, List.filterMap_append, List.filterMap_append]
    rfl

theorem inBlock_writing {step : Build Unit} (h : (Law.writing p id n e).Keeps env step) :
    (Law.writing p id n e).Leaves env (inBlock step) := by
  rintro s ⟨plan, named, kept, rfl, closed⟩
  unfold inBlock
  rw [meets_bind, meets_modifyHere, meets_bind]
  have opened : s.Enters p { s with stages := s.stages.modify env.stage StageBuild.openBlock } :=
    .of_eq rfl rfl rfl rfl rfl
  refine (h _ ⟨plan, opened.named named, ?_, rfl, fun he => ?_⟩).imp fun _ s' hr => ?_
  · exact kept.of_same rfl rfl (s.stages.map_get_modify env.stage .fragment fun _ => rfl)
  · rw [PerStage.get_modify, if_neg (Ne.symm he)]
    exact closed he
  · rw [meets_bind, meets_here, meets_bind, meets_modifyHere, meets_pure]
    exact (writing_rel.1 hr).closeBlock

theorem bindName_writing (m : NodeId) (name : String) (frame : Option FrameId) :
    (Law.writing p id n e).Keeps env (bindName m name frame) :=
  .read (.bind .here fun _ _ _ => writing_rel.2 (writes_of_eq rfl rfl rfl rfl rfl rfl rfl))

theorem writing_closed : (Law.writing p id n e).Closed where
  registerUniform id name type group update value := fun _ hi =>
    (meets_writing (registerUniform_listing id name type group update value hi.1)
      (typing_ofTables (registerUniform_tables _ _ _ _ _ _))).imp fun _ _ h => h.1
  useUniform group u :=
    writing_ofListing (useUniform_listing group u) (typing_ofTables (useUniform_tables group u))
  registerTexture name := fun _ _ =>
    (meets_writing (registerTexture_listing (p := p) name)
      (typing_ofTables (registerTexture_tables name))).imp fun _ _ h => h.1
  useTexture name :=
    writing_ofListing (useTexture_listing name) (typing_ofTables (useTexture_tables name))
  registerStorage name element count access _ :=
    meets_writing (registerStorage_listing (p := p) name element count access)
      (typing_ofTables (registerStorage_tables name element count access))
  useStorage name b hi hb := by
    refine ((useStorage_listing hi.1 hb).and (typing_ofTables ?_ _ trivial)).imp fun _ _ h => ?_
    · exact useStorage_tables (absurd trivial) name b
    · exact writing_rel.2 (writes_of_still h.1 h.2)
  registerAttribute name type := fun _ _ =>
    (meets_writing (registerAttribute_listing (p := p) name type)
      (typing_ofTables (registerAttribute_tables name type))).imp fun _ _ h => h.1
  useAttribute name type _ :=
    writing_ofListing (useAttribute_listing name type) (typing_ofTables (useAttribute_tables name type))
  useBuiltin b := writing_ofListing (useBuiltin_listing b) (typing_ofTables (useBuiltin_tables b))
  property := buildProperty_writing
  useType type :=
    writing_ofListing (useType_listing type) (typing_ofTables (useType_tables (absurd trivial) type))
  registerFunction f := writing_ofListing (registerFunction_lists f) (registerFunction_still f)
  useFunction f := writing_ofListing (useFunction_listing f) (useFunction_still f)
  claimLocal _ :=
    .ofKeeps (fun _ _ => writing_names fun _ => ⟨rfl, rfl, rfl, rfl⟩) fun _ => trivial
  releaseLocal _ := fun _ _ => writing_names fun _ => ⟨rfl, rfl, rfl, rfl⟩
  claimTemp := .ofKeeps (fun _ _ => writing_names fun _ => ⟨rfl, rfl, rfl, rfl⟩) fun _ => trivial
  bindValue name _ _ := .read (bindName_writing _ name _)
  add hi ha hr := by
    refine writing_rel.2 (.add ?_ (hi.2.2.2.1 ▸ hr))
    unfold Statement.written?
    cases ht : Statement.target? _ with
    | none => rfl
    | some place => exact ha.place place ht
  inBlock := inBlock_writing

theorem writing_unscoped : (Law.writing p id n e).Unscoped where
  ends _ := trivial
  surroundings hi hp he := ⟨hp.trans hi.1, hi.2.1, hi.2.2.1, he.trans hi.2.2.2.1, hi.2.2.2.2⟩
  types _ _ _ := writing_rel.2 (writes_of_eq rfl rfl rfl rfl rfl rfl rfl)
  functions f := writing_ofListing (registerFunction_lists f) (registerFunction_still f)
  scopes _ _ _ := writing_rel.2 (writes_of_eq rfl rfl rfl rfl rfl rfl rfl)

theorem declareVariable_writing {value : NodeId} {readOnly : Bool} {x : String} {type : ValueType}
    {init : Expr} :
    (Law.writing p id n e).Keeps env (declareVariable m value readOnly x type init) := by
  refine .bind (.mutability value readOnly) fun mode => .bind (.recordKey m) fun key => ?_
  refine .bind (fun s _ => writing_rel.2 ?_) fun _ => bindName_writing m x none
  exact .add rfl (writing_rel.2 (.refl s))

/-! ### Places -/

/-- The code of a variable is a local. -/
theorem buildVariable_local (id value : NodeId) (name : Option String) (readOnly : Bool) :
    Returns (fun e => e.varying? = none) (buildVariable g id value name readOnly) := by
  refine .bind fun bound => ?_
  split
  · exact .pure rfl
  · exact .bind fun v => .bind fun _ => .pure rfl

theorem buildProperty_local (name : String) (type : ValueType) :
    Returns (fun e => e.varying? = none) (buildProperty name type) := by
  refine .bind fun b => ?_
  split
  · exact .when fun _ => .pure rfl
  · exact .bind fun _ => .bind fun emitted => .bind fun _ => .pure rfl

theorem useStorage_storage (name : String) (b : StorageEntry) :
    Returns (fun e => e.varying? = none) (useStorage name b) := by
  have rest : Returns (fun e => e.varying? = none) (do
      markType b.element
      modifyHere fun h => { h with storage := appendNew h.storage name }
      return Expr.reference (.storage b.name)) := .bind fun _ => .bind fun _ => .pure rfl
  exact .ite (.bind fun _ => .bind fun _ => rest) rest

/-- The code of a variable or a property is no varying. -/
theorem generator_emit_local {fuel : Nat} (hm : env.plan.resolve m = .ok m)
    (hn : (∃ value name readOnly, env.plan.node m = .ok (.var value name readOnly)) ∨
      ∃ name type, env.plan.node m = .ok (.property name type)) :
    Meets ((generator fuel).emit m) env s (fun _ => True) fun code _ =>
      ∀ e ∈ code, e.varying? = none := by
  cases fuel with
  | zero => trivial
  | succ fuel =>
    refine meets_emitNode (fun _ => trivial) fun m' n hm' hnode => ?_
    cases hm.symm.trans hm'
    rcases hn with ⟨value, name, readOnly, hn⟩ | ⟨name, type, hn⟩
    · cases hnode.symm.trans hn
      show Meets (some <$> buildVariable (generator fuel) m value name readOnly) _ _ _ _
      rw [meets_map]
      refine (buildVariable_local m value name readOnly env s).imp fun e _ he => ?_
      rintro _ ⟨⟩
      exact he
    · cases hnode.symm.trans hn
      show Meets (some <$> buildProperty name type) _ _ _ _
      rw [meets_map]
      refine (buildProperty_local name type env s).imp fun e _ he => ?_
      rintro _ ⟨⟩
      exact he

/-- An element of what is no varying is none. -/
theorem buildElement_base {base : Expr} (source i : NodeId) (hb : base.varying? = none) :
    Returns (fun code => ∀ e ∈ code, e.varying? = none) (buildElement g (some base) source i) := by
  refine .bind fun type => .bind fun index => .bind fun _ => .bind fun _ => .bind fun i => .pure ?_
  rintro _ ⟨⟩
  exact hb

/-- What has a value that is no varying. -/
theorem meets_value {type : ValueType} {step : Build (Option Expr)}
    (h : Meets step env s (fun _ => True) fun code _ => ∀ e ∈ code, e.varying? = none) :
    Meets (do
      match ← step with
      | some e => return e
      | none => fail (TypeError.noValue type)) env s (fun _ => True) fun e _ => e.varying? = none := by
  rw [meets_bind]
  refine h.imp fun code s' hc => ?_
  cases code with
  | none => trivial
  | some e => exact hc e rfl

theorem placeBase_place {base : NodeId} (h : ∀ id s, Meets (g.place id) env s (fun _ => True)
      fun r _ => r.1.varying? = none) :
    Meets (placeBase g base) env s (fun _ => True) fun e _ => e.varying? = none := by
  unfold placeBase
  rw [meets_bind, meets_resolve]
  cases env.plan.resolve base with
  | error e => trivial
  | ok m =>
    dsimp only
    rw [meets_bind, meets_node]
    cases env.plan.node m with
    | error e => trivial
    | ok n =>
      dsimp only
      split
      · next _ name _ _ _ =>
        have used : ∀ b : StorageEntry, Returns (fun e => e.varying? = none) (do
            let e ← useStorage name b
            if b.access = .read then fail (LayoutError.readOnlyBuffer name)
            return e) := by
          intro b env s
          rw [meets_bind]
          refine (useStorage_storage name b env s).imp fun e s' he => ?_
          refine meets_check fun _ => he
        rw [meets_bind]
        exact (meets_true _).imp fun b s' _ => used b env s'
      · rw [meets_bind]
        exact (h base s).imp fun r s' hr => hr

/-- The place of a node is no varying when those of the nodes below it are none. -/
theorem placeOf_place {n : Node} {type : ValueType} (h : ∀ id s, Meets (g.place id) env s
      (fun _ => True) fun r _ => r.1.varying? = none)
    (emit : ((∃ value name readOnly, n = .var value name readOnly) ∨ ∃ name type, n = .property name type) →
      Meets (g.emit m) env s (fun _ => True) fun code _ => ∀ e ∈ code, e.varying? = none) :
    Meets (placeOf g m type n) env s (fun _ => True) fun e _ => e.varying? = none := by
  cases n with
  | var value name readOnly =>
    cases readOnly with
    | true => trivial
    | false => exact meets_value (emit (.inl ⟨_, _, _, rfl⟩))
  | property name type => exact meets_value (emit (.inr ⟨_, _, rfl⟩))
  | member base name =>
    show Meets (g.place base >>= _) _ _ _ _
    rw [meets_bind]
    exact (h base s).imp fun r s' hr => hr
  | index base i =>
    show Meets (placeBase g base >>= _) _ _ _ _
    rw [meets_bind]
    exact (placeBase_place h).imp fun e s' he => meets_value (buildElement_base base i he env s')
  | split base components =>
    have rest : ∀ s, Meets (swizzlePlace g base components) env s (fun _ => True) fun e _ =>
        e.varying? = none := by
      intro s
      rw [swizzlePlace, meets_bind]
      refine (h base s).imp fun r s' hr => ?_
      rw [meets_bind, meets_ofExcept]
      split
      · exact hr
      · trivial
    show Meets (dialect >>= _) _ _ _ _
    rw [meets_bind, meets_dialect]
    refine (meets_ite _ _ _).2 ⟨fun _ => ?_, fun _ => rest s⟩
    trivial
  | _ => trivial

/-- What is assigned to is no varying. -/
theorem generator_place {fuel : Nat} :
    Meets ((generator fuel).place m) env s (fun _ => True) fun r _ => r.1.varying? = none := by
  induction fuel generalizing m env s with
  | zero => trivial
  | succ fuel ih =>
    show Meets (buildPlace (generator fuel) m) env s _ _
    unfold buildPlace
    rw [meets_bind, meets_resolve]
    cases hm : env.plan.resolve m with
    | error e => trivial
    | ok m' =>
      dsimp only
      rw [meets_located, meets_bind, meets_node]
      cases hn : env.plan.node m' with
      | error e => trivial
      | ok n =>
        dsimp only
        rw [meets_bind]
        refine (meets_true (typeOf m')).imp fun type s' _ => ?_
        rw [meets_bind]
        refine (placeOf_place (fun _ _ => ih) fun hn' => ?_).imp fun e _ he => he
        refine generator_emit_local (Plan.resolve_of_resolve hm) ?_
        rcases hn' with ⟨value, name, readOnly, rfl⟩ | ⟨name, type, rfl⟩
        · exact .inl ⟨_, _, _, hn⟩
        · exact .inr ⟨_, _, hn⟩

/-! ### Visits -/

/-- A visit is a first one when its node had not been visited when it came. -/
theorem isFirst_visitAt {code : Option Expr} (hv : s.visits <:+ s'.visits) :
    (visitAt env s m code).IsFirst id s'.visits ↔ m = id ∧ ∀ w ∈ s.visits, w.key.node ≠ id := by
  obtain ⟨newer, hv⟩ := hv
  have before : s'.visits.drop (s'.visits.length - (visitAt env s m code).since) = s.visits := by
    show s'.visits.drop (s'.visits.length - s.visits.length) = s.visits
    rw [← hv, List.length_append, Nat.add_sub_cancel, List.drop_left]
  rw [Visit.IsFirst, before]
  rfl

/-- A visit at another node. -/
theorem writes_other {code : Option Expr} (h : s.Writes p id n [] s') (hm : m ≠ id) :
    s.Writes p id n [] { s' with visits := visitAt env s m code :: s'.visits } := by
  have other : ¬(visitAt env s m code).IsFirst id s'.visits := fun hf => hm hf.1
  refine h.log (.of_eq rfl rfl rfl rfl rfl) (fun _ => rfl) rfl (fun hk => ?_)
    (fun _ => ?_) fun _ => ?_
  · exact hk.log rfl (fun hid => absurd hid hm) fun _ => ⟨rfl, fun hd => hd⟩
  · rw [if_neg other]
    rfl
  · rw [if_neg fun hf => other hf.1]
    rfl

/-- A visit at the varying `m` adds `k` statements that write it, `o` of them in the outermost
block; they write `n` if the varying is the one of `id`. -/
structure Completes (p : Plan) (id m : NodeId) (n : String) (k o : Nat) (s s' : BuildState) :
    Prop where
  enters : s.Enters p s'
  blocks : ∀ t, (s'.stages.get t).openBlocks = (s.stages.get t).openBlocks
  visits : s'.visits = s.visits
  others : ∀ j, j ≠ m → isWritten s' j = isWritten s j ∧
    (j ∈ (s'.stages.get .fragment).varyings → j ∈ (s.stages.get .fragment).varyings)
  all : s'.Owns id n → (s'.stages.get .vertex).written.count n =
    (s.stages.get .vertex).written.count n + if m = id then k else 0
  outside : s'.Owns id n → (s'.stages.get .vertex).writtenOutside.count n =
    (s.stages.get .vertex).writtenOutside.count n + if m = id then o else 0

variable {k o : Nat}

/-- The name of a varying is the one that another has exactly when they are the same. -/
theorem owns_iff {x : String} (hx : s.namesOf (.varying m) = [x]) (ho : s.Owns id n) :
    x = n ↔ m = id := by
  constructor
  · rintro rfl
    exact Item.varying.inj (ho.only _ (hx ▸ .head _))
  · rintro rfl
    exact ho.name x (hx ▸ .head _)

theorem Completes.refl (s : BuildState) : Completes p id m n 0 0 s s :=
  ⟨.refl s, fun _ => rfl, rfl, fun _ _ => ⟨rfl, fun hj => hj⟩, fun _ => by rw [ite_self]; rfl,
    fun _ => by rw [ite_self]; rfl⟩

/-- The statement that writes the varying is added. -/
theorem Completes.add {x : String} {c : Expr} (hx : s.namesOf (.varying m) = [x]) :
    Completes p id m n 1 (if (s.stages.get .vertex).inner = [] then 1 else 0) s
      { s with stages := s.stages.modify .vertex fun b =>
          b.add (.assign (.reference (.varying .vertex x)) c) } where
  enters := .of_eq rfl rfl rfl rfl rfl
  blocks t := s.stages.map_get_modify .vertex t (g := StageBuild.openBlocks)
    fun _ => StageBuild.openBlocks_add
  visits := rfl
  others j _ := by
    refine ⟨rfl, fun hd => ?_⟩
    rw [PerStage.get_modify, if_neg (by decide)] at hd
    exact hd
  all ho := by
    have own := owns_iff hx (ho.before (p := p) (.of_eq rfl rfl rfl rfl rfl))
    rw [PerStage.get_modify, if_pos rfl, StageBuild.count_written_add]
    show _ + ([x].count n + _) = _
    rw [List.count_singleton, ← if_congr own rfl rfl]
    simp [Statement.blocks, Statement.writtenIn, Statement.collectIn]
  outside ho := by
    have own := owns_iff hx (ho.before (p := p) (.of_eq rfl rfl rfl rfl rfl))
    rw [PerStage.get_modify, if_pos rfl, StageBuild.writtenOutside_add, List.count_append,
      ← if_congr own rfl rfl]
    show _ + (if _ then [x] else []).count n = _
    split
    · rw [List.count_singleton]
      simp
    · simp

/-- The varying gets its location. -/
theorem locateVarying_completes {v : VaryingEntry} {name : Option String}
    {interpolation : Interpolation} {sampling : Option Sampling}
    (hn : p.node m = .ok (.varying v.source name interpolation sampling))
    (hv : s'.namesOf (.varying m) = [v.name]) (h : Completes p id m n k o s s') :
    Meets (locateVarying m v) env s' (fun _ => True) fun _ s'' =>
      Completes p id m n k o s s'' ∧ isWritten s'' m = true := by
  have lists : Meets (locateVarying m v) env s' (fun _ => True) fun _ s'' => s'.Lists p s'' :=
    locateVarying_listing hn hv
  unfold locateVarying at lists ⊢
  rw [meets_modify] at lists ⊢
  by_cases hw : isWritten s' m = true
  · rw [if_pos hw]
    exact ⟨h, hw⟩
  · rw [if_neg hw] at lists ⊢
    refine ⟨⟨h.enters.trans lists.toEnters, h.blocks, h.visits, fun j hj => ⟨?_, (h.others j hj).2⟩,
      fun ho => h.all (ho.before lists.toEnters),
      fun ho => h.outside (ho.before lists.toEnters)⟩, ?_⟩
    · rw [← (h.others j hj).1, isWritten, OrderedMap.get?_put, if_neg hj]
      rfl
    · rw [isWritten, OrderedMap.get?_put, if_pos rfl]
      rfl

/-- The program of a stage declares the varying. -/
theorem Completes.mark {t : Stage} (h : Completes p id m n k o s s') :
    Completes p id m n k o s
      { s' with stages := s'.stages.modify t fun b =>
          { b with varyings := appendNew b.varyings m } } where
  enters := h.enters.trans (.of_eq rfl rfl rfl rfl rfl)
  blocks u := by
    rw [← h.blocks u]
    exact s'.stages.map_get_modify t u (g := StageBuild.openBlocks) fun _ => rfl
  visits := h.visits
  others j hj := by
    refine ⟨(h.others j hj).1, fun hd => (h.others j hj).2 ?_⟩
    rw [PerStage.get_modify] at hd
    split at hd
    · exact (mem_appendNew.1 hd).resolve_right hj
    · exact hd
  all ho := by
    rw [← h.all (ho.before (p := p) (.of_eq rfl rfl rfl rfl rfl))]
    exact congrArg (List.count n)
      (s'.stages.map_get_modify t .vertex (g := StageBuild.written) fun _ => rfl)
  outside ho := by
    rw [← h.outside (ho.before (p := p) (.of_eq rfl rfl rfl rfl rfl))]
    exact congrArg (List.count n)
      (s'.stages.map_get_modify t .vertex (g := StageBuild.writtenOutside) fun _ => rfl)

/-- The visit at a varying, after what it leaves behind. -/
theorem Completes.log {code : Option Expr} (hk : s.Kept id) (h : s.Writes p id n [] s')
    (hc : Completes p id m n k o s' s'') (hw : isWritten s'' m = true)
    (first : k = if isWritten s m then 0 else 1)
    (place : o = if (visitAt env s m code).isOutside then k else 0) :
    s.Writes p id n [] { s'' with visits := visitAt env s m code :: s''.visits } := by
  have visits : s.visits <:+ s''.visits := hc.visits ▸ h.visits
  -- the visit is a first one exactly when the varying was not written before
  have isFirst : (visitAt env s m code).IsFirst id s'.visits ↔ m = id ∧ isWritten s m = false := by
    rw [isFirst_visitAt h.visits]
    refine and_congr_right fun hm => ?_
    rw [hm, ← Bool.not_eq_true, hk.written]
    push Not
    rfl
  refine Writes.log h (hc.enters.trans (.of_eq rfl rfl rfl rfl rfl)) hc.blocks
    (congrArg _ hc.visits) (fun hk => hk.log (congrArg _ hc.visits) (fun hid => hid ▸ hw)
      fun hid => hc.others id (Ne.symm hid)) (fun ho => ?_) fun ho => ?_
  · refine (hc.all (ho.before (p := p) (.of_eq rfl rfl rfl rfl rfl))).trans ?_
    rw [if_congr isFirst rfl rfl, first]
    cases isWritten s m <;> simp
  · refine (hc.outside (ho.before (p := p) (.of_eq rfl rfl rfl rfl rfl))).trans ?_
    rw [if_congr (and_congr_left' isFirst) rfl rfl, place, first]
    cases isWritten s m <;> simp [ite_and]

theorem isOutside_visitAt {code : Option Expr} (hi : (Law.writing p id n e).inv env s) :
    (visitAt env s m code).isOutside = true ↔ (s.stages.get .vertex).inner = [] := by
  obtain ⟨-, -, -, rfl, closed⟩ := hi
  show (some env.stage ≠ some Stage.vertex ||
    (s.stages.get env.stage).openBlocks.length ≤ 1) = true ↔ _
  by_cases he : env.stage = .vertex
  · simp [he, StageBuild.inner_eq_nil_iff]
  · simp [he, closed he]

/-- What comes of the first visit of a varying: the code of its source, then the statement. -/
theorem writeVarying_writes (hg : (Law.writing p id n .vertex).Runs g) {v : VaryingEntry}
    {name : Option String} {interpolation : Interpolation} {sampling : Option Sampling}
    (hn : p.node m = .ok (.varying v.source name interpolation sampling))
    (hi : (Law.writing p id n e).inv env s) (hv : s.namesOf (.varying m) = [v.name])
    (hw : v.location.isSome = isWritten s m) :
    Meets (writeVarying g m v) env s (fun _ => True) fun _ s'' =>
      ∃ s' k, s.Writes p id n [] s' ∧ isWritten s'' m = true ∧ (k = if isWritten s m then 0 else 1) ∧
        Completes p id m n k (if (s.stages.get .vertex).inner = [] then k else 0) s' s'' := by
  unfold writeVarying
  refine (meets_ite _ _ _).2 ⟨fun h => ?_, fun h => ?_⟩
  · rw [hw] at h
    exact ⟨s, 0, .refl s, h, by rw [if_pos h], by rw [ite_self]; exact .refl s⟩
  rw [hw, Bool.not_eq_true] at h
  obtain ⟨plan, named, kept, stage, closed⟩ := hi
  have inside : (Law.writing p id n .vertex).inv (within env .vertex) s :=
    ⟨by unfold within; split <;> exact plan, named, kept, stage_within env .vertex,
      fun he => absurd rfl he⟩
  show Meets (inStage .vertex _ >>= _) env s _ _
  rw [meets_bind, meets_inStage, meets_bind]
  refine ((hg.serves writing_unscoped.toIndifferent).value v.type s inside).imp fun value s' hr => ?_
  have writes := writing_rel.1 hr
  have entry : s'.namesOf (.varying m) = [v.name] :=
    (writes.enters.keep (hv ▸ List.cons_ne_nil _ _)).trans hv
  -- the statement goes to the block that was open when the visit came
  have place : (s'.stages.get .vertex).inner = [] ↔ (s.stages.get .vertex).inner = [] := by
    rw [StageBuild.inner_eq_nil_iff, writes.blocks, ← StageBuild.inner_eq_nil_iff]
  have added := @Completes.add p id m n s' v.name value entry
  rw [if_congr place rfl rfl] at added
  rw [meets_bind, addStatement, meets_modifyHere, meets_modifyHere, stage_within]
  refine (locateVarying_completes hn ?_ added.mark).imp fun _ s'' hr' => ?_
  · exact entry
  · exact ⟨s', 1, writes, hr'.2, by rw [if_neg (by simp [h])], hr'.1⟩

/-- The visit at a varying. -/
theorem buildVarying_writes (hg : (Law.writing p id n .vertex).Runs g) {source : NodeId}
    {name : Option String} {interpolation : Interpolation} {sampling : Option Sampling}
    (hn : p.node m = .ok (.varying source name interpolation sampling))
    (hi : (Law.writing p id n e).inv env s) :
    Meets (buildVarying g m source name interpolation sampling) env s (fun _ => True)
      fun code s' => s.Writes p id n []
        { s' with visits := visitAt env s m (some code) :: s'.visits } := by
  show Meets (stage >>= _) env s _ _
  rw [meets_bind, meets_stage]
  refine meets_check fun _ => ?_
  rw [meets_bind]
  have lists := registerVarying_listing hi.1 hn hi.2.1
  have location := @registerVarying_location env m source name interpolation sampling s
  refine ((lists.and location).and (registerVarying_still hn hi.2.1.sources)).imp ?_
  rintro v s₁ ⟨⟨⟨lists, source', entry⟩, unwritten, hw⟩, ⟨still, -⟩, -⟩
  have registered : s.Writes p id n [] s₁ :=
    .of_lists lists (congrArg Still.visits still) (unwritten id)
  have inner : (s₁.stages.get .vertex).inner = (s.stages.get .vertex).inner :=
    congrArg EntryPoint.inner (congrFun lists.bodies .vertex)
  rw [meets_bind]
  refine (writeVarying_writes hg (source'.symm ▸ hn) (Law.mono _ hi (writing_rel.2 registered)) entry
    (hw.trans (unwritten m).symm)).imp ?_
  rintro _ s₂ ⟨s', k, writes, written, count, completes⟩
  have done : ∀ s₃, Completes p id m n k (if (s₁.stages.get .vertex).inner = [] then k else 0) s' s₃ →
      isWritten s₃ m = true → ∀ code, s.Writes p id n []
        { s₃ with visits := visitAt env s m code :: s₃.visits } := by
    intro s₃ h₃ hw₃ code
    refine h₃.log hi.2.2.1 (registered.trans writes) hw₃ (by rw [count, unwritten]) ?_
    exact if_congr (inner ▸ (isOutside_visitAt hi).symm) rfl rfl
  refine (meets_ite _ _ _).2 ⟨fun _ => ?_, fun _ => done s₂ completes written _⟩
  rw [meets_bind, meets_modifyHere]
  exact done _ completes.mark written _

/-- Another node than a varying or a variable keeps to what is said of writing. -/
theorem generateNode_writes (hg : ∀ e, (Law.writing p id n e).Runs g) {source : NodeId}
    {name : Option String} {interpolation : Interpolation} {sampling : Option Sampling}
    (hid : p.node id = .ok (.varying source name interpolation sampling)) {nd : Node}
    (hi : (Law.writing p id n e).inv env s) (hn : p.node m = .ok nd) :
    Meets (generateNode g m nd) env s (fun _ => True) fun code s' =>
      s.Writes p id n [] { s' with visits := visitAt env s m code :: s'.visits } := by
  by_cases varying : ∃ source name interpolation sampling,
      nd = .varying source name interpolation sampling
  · obtain ⟨source', name', interpolation', sampling', rfl⟩ := varying
    show Meets (some <$> buildVarying g m source' name' interpolation' sampling') _ _ _ _
    rw [meets_map]
    exact buildVarying_writes (hg .vertex) hn hi
  · have keeps : (Law.writing p id n e).Keeps env (generateNode g m nd) := by
      refine writing_unscoped.generateNode writing_closed (hg e) (hi.1 ▸ hn) ?_ ?_
      · exact fun _ _ _ _ h => absurd ⟨_, _, _, _, h⟩ varying
      · rintro value name readOnly -
        exact .buildVariable writing_closed.toStraight (typeOf_indifferent writing_unscoped.toIndifferent m)
          ((hg e).serves writing_unscoped.toIndifferent) fun _ _ _ _ => declareVariable_writing
    have other : m ≠ id := by
      rintro rfl
      cases hn.symm.trans hid
      exact varying ⟨_, _, _, _, rfl⟩
    exact (keeps s hi).imp fun code s' hr => writes_other (writing_rel.1 hr) other

/-- Generation writes each varying at its first visits. -/
theorem generator_writes {source : NodeId} {name : Option String} {interpolation : Interpolation}
    {sampling : Option Sampling}
    (hid : p.node id = .ok (.varying source name interpolation sampling)) (fuel : Nat) (e : Stage) :
    (Law.writing p id n e).Runs (generator fuel) := by
  refine generator_runs (L := Law.writing p id n) (fun _ => writing_unscoped)
    (fun _ => writing_closed.toPlain) (fun _ fuel m env s => generator_place) ?_ fuel e
  intro e depth env s m nd hg hi hn
  exact (generateNode_writes hg hid hi (hi.1 ▸ hn)).imp fun _ _ => writing_rel.2

theorem generate_writes {source : NodeId} {name : Option String} {interpolation : Interpolation}
    {sampling : Option Sampling} {active : List Stage} {rs : List (Stage × NodeId)}
    (hid : p.node id = .ok (.varying source name interpolation sampling)) (hs : s.Named p)
    (hk : s.Kept id) (hc : (s.stages.get .vertex).inner = [])
    (h : atRoots p active generateStage rs s = .ok s') : s.Writes p id n [] s' := by
  refine generate_keeps (L := Law.writing p id n) (M := Law.writes p id n)
    (fun _ => writing_unscoped) (generator_writes hid) (fun _ _ output => ?_)
    (fun e s hi => ⟨rfl, hi.1, hi.2.1, rfl, fun _ => hi.2.2⟩) (fun _ _ _ => writing_rel.1)
    (fun _ => trivial) (fun _ => ⟨hs, hk, hc⟩) h
  exact fun s _ => writing_rel.2 ((Writes.refl s).modify rfl (fun _ => rfl) (fun _ => rfl)
    (fun _ => rfl) fun _ => rfl)

end Build

/-! ## Varyings that are always written -/

namespace Program

/-- The varyings that the entry point of a program writes, one for each statement. -/
def writtenVaryings (prog : Program) : List String :=
  Statement.writtenIn (prog.locals ++ prog.body)

/-- The varyings that statements of the outermost block write. -/
def writtenOutside (prog : Program) : List String :=
  (prog.locals ++ prog.body).filterMap Statement.written?

/-- A single statement of the program writes the varying, and it stands in the outermost block. -/
structure WritesOnce (prog : Program) (n : String) : Prop where
  single : prog.writtenVaryings.count n = 1
  outside : prog.writtenOutside.count n = 1

end Program

open Build BuildState

variable {p : Plan} {rs : List (Stage × NodeId)} {s : BuildState} {id : NodeId} {n : String}

/-- After analysis nothing is written, visited or stated. -/
structure BuildState.Unwritten (id : NodeId) (s : BuildState) : Prop where
  kept : s.Kept id
  inner : (s.stages.get .vertex).inner = []
  written : (s.stages.get .vertex).written = []
  outside : (s.stages.get .vertex).writtenOutside = []
  firsts : s.firsts id = []

theorem unwritten_of_surveys (h : (BuildState.start p).Surveys p s) : s.Unwritten id := by
  have visits : s.visits = [] := h.visits
  have bodies : ∀ t, s.bodies t = (BuildState.start p).bodies t := fun t => congrFun h.bodies t
  have inner : (s.stages.get .vertex).inner = _ := congrArg EntryPoint.inner (bodies .vertex)
  have outer : (s.stages.get .vertex).outer = _ := congrArg EntryPoint.outer (bodies .vertex)
  have locals : (s.stages.get .vertex).locals = _ := congrArg EntryPoint.locals (bodies .vertex)
  have varyings : (s.stages.get .fragment).varyings = [] :=
    congrArg EntryPoint.varyings (bodies .fragment)
  refine ⟨⟨?_, fun hd => ?_⟩, inner, ?_, ?_, ?_⟩
  · rw [h.written id, visits]
    exact iff_of_false (fun h => nomatch h) fun ⟨_, hv, _⟩ => nomatch hv
  · rw [varyings] at hd
    cases hd
  · unfold StageBuild.written StageBuild.collect
    rw [inner, outer, locals]
    rfl
  · unfold StageBuild.writtenOutside
    rw [outer, locals]
    rfl
  · rw [BuildState.firsts, visits, Visit.firsts]

/-- After a run the vertex program writes a varying once for each first visit of its node. -/
theorem written_of_run {v : VaryingEntry} (h : run p rs = .ok s)
    (hv : s.varyings.get? id = some v) :
    s.Kept id ∧ (s.stages.get .vertex).inner = [] ∧
      (s.stages.get .vertex).written.count v.name = (s.firsts id).length ∧
      (s.stages.get .vertex).writtenOutside.count v.name =
        (s.firsts id).countP Visit.isOutside := by
  obtain ⟨s₀, hanalyze, hgenerate⟩ := of_run h
  have surveys := analyze_surveys hanalyze
  have named₀ := surveys.named (named_start p)
  have named : s.Named p := (generate_avoids named₀ hgenerate).enters.named named₀
  have hname : s.namesOf (.varying id) = [v.name] := by rw [namesOf, hv, Option.elim]
  have owns : s.Owns id v.name :=
    ⟨fun i hi => named.distinct hi (hname ▸ .head _), fun m hm => List.mem_singleton.1 (hname ▸ hm)⟩
  have start : s₀.Unwritten id := unwritten_of_surveys surveys
  obtain ⟨name, interpolation, sampling, hnode⟩ := named.sources id v hv
  have writes : s₀.Writes p id v.name [] s :=
    generate_writes hnode named₀ start.kept start.inner hgenerate
  have all := writes.all owns
  have outside := writes.outside owns
  rw [start.written, start.firsts] at all
  rw [start.outside, start.firsts] at outside
  refine ⟨writes.kept start.kept, ?_, by simpa using all, by simpa using outside⟩
  rw [StageBuild.inner_eq_nil_iff, writes.blocks, ← StageBuild.inner_eq_nil_iff]
  exact start.inner

variable {g : Graph} {request : BuildRequest} {options : BuildOptions} {host : Host} {a : Artifact}
  {vp fp : Program} {d : LocationDecl ValueType}

/-- The vertex program writes each varying of the fragment program. It does so by one statement, in
the outermost block, exactly when a single visit of the varying came before any was answered, and
no block of the vertex program but the outermost one was open then. -/
theorem writesOnce_iff (h : build g request options host = .ok a) (hv : vp ∈ a.programs)
    (hvs : vp.stage = .vertex) (hf : fp ∈ a.programs) (hfs : fp.stage = .fragment)
    (hd : d ∈ fp.varyings) : ∃ p s id,
      Plan.make g options (request.roots.map Prod.snd) host = .ok p ∧ run p request.roots = .ok s ∧
        s.namesOf (.varying id) = [d.name] ∧ d.name ∈ vp.writtenVaryings ∧
        (vp.WritesOnce d.name ↔ ∃ v, s.firsts id = [v] ∧ v.isOutside = true) := by
  obtain ⟨p, s, hmake, hrun, hartifact⟩ := of_build h
  obtain ⟨programs, -, -⟩ := of_artifact hartifact
  obtain ⟨t, -, vertex⟩ := programs vp hv
  obtain rfl : t = .vertex := vertex.stage.symm.trans hvs
  obtain ⟨t, -, fragment⟩ := programs fp hf
  obtain rfl : t = .fragment := fragment.stage.symm.trans hfs
  rw [fragment.varyings, sortByNumber, mem_sortBy, List.mem_filterMap] at hd
  obtain ⟨id, hid, hd⟩ := hd
  obtain ⟨v, hv, rfl⟩ := Option.map_eq_some_iff.1 hd
  obtain ⟨kept, inner, all, outside⟩ := written_of_run hrun hv
  have written : vp.writtenVaryings = (s.stages.get .vertex).written := by
    rw [Program.writtenVaryings, Statement.writtenIn, Statement.collectIn_append, vertex.locals,
      vertex.body, StageBuild.written, StageBuild.collect, inner]
    rfl
  have writtenOutside : vp.writtenOutside = (s.stages.get .vertex).writtenOutside := by
    rw [Program.writtenOutside, vertex.locals, vertex.body]
    rfl
  obtain ⟨w, hw, hwid⟩ := kept.declared hid
  refine ⟨p, s, id, hmake, hrun, by rw [namesOf, hv, Option.elim], ?_, ?_⟩
  · rw [written, ← List.count_pos_iff, all]
    exact List.length_pos_of_ne_nil (Visit.firsts_ne_nil hw hwid)
  · constructor
    · intro once
      have single := once.single
      have single' := once.outside
      rw [written, all, List.length_eq_one_iff] at single
      obtain ⟨w, hw⟩ := single
      rw [writtenOutside, outside, hw, List.countP_singleton] at single'
      exact ⟨w, hw, by simpa using single'⟩
    · rintro ⟨w, hw, hout⟩
      refine ⟨?_, ?_⟩
      · rw [written, all, hw, List.length_singleton]
      · rw [writtenOutside, outside, hw, List.countP_singleton, if_pos hout]

/-- Some nodes and a branch that keeps a varying in a variable, in the vertex program. -/
def branching (before : List NodeId) : Graph := .ofNodes
  [.const .float [1], .varying ⟨0⟩ (some "u") .perspective none, .var ⟨1⟩ (some "t") false,
    .const .bool [1], .conditional ⟨3⟩ ⟨2⟩ none, .const .vec4 [0],
    .stack (before ++ [⟨4⟩]) (some ⟨5⟩)]

/-- Whether the vertex program of a build and the name of a varying of its fragment program pass a
check. -/
def links (check : Program → String → Bool) : Except Failure Artifact → Bool
  | .ok a => a.programs.any fun vp => vp.stage = .vertex && a.programs.any fun fp =>
      fp.stage = .fragment && fp.varyings.any fun d => check vp d.name
  | .error _ => false

theorem of_links {check : Program → String → Bool} {r : Except Failure Artifact}
    (h : links check r = true) : ∃ a, r = .ok a ∧ ∃ vp ∈ a.programs, vp.stage = .vertex ∧
      ∃ fp ∈ a.programs, fp.stage = .fragment ∧ ∃ d ∈ fp.varyings, check vp d.name = true := by
  unfold links at h
  split at h
  · next a =>
    obtain ⟨vp, hvp, h⟩ := List.any_eq_true.1 h
    obtain ⟨hvs, h⟩ := Bool.and_eq_true_iff.1 h
    obtain ⟨fp, hfp, h⟩ := List.any_eq_true.1 h
    obtain ⟨hfs, h⟩ := Bool.and_eq_true_iff.1 h
    obtain ⟨d, hd, h⟩ := List.any_eq_true.1 h
    exact ⟨a, rfl, vp, hvp, of_decide_eq_true hvs, fp, hfp, of_decide_eq_true hfs, d, hd, h⟩
  · cases h

/-- A varying that is met in a branch first is written in the branch only. -/
theorem branching_not_writesOnce :
    ∃ a, build (branching []) ⟨some ⟨6⟩, some ⟨1⟩, none⟩ (.ofDialect .glsl) = .ok a ∧
      ∃ vp ∈ a.programs, vp.stage = .vertex ∧ ∃ fp ∈ a.programs, fp.stage = .fragment ∧
        ∃ d ∈ fp.varyings, ¬vp.WritesOnce d.name := by
  have nowhere : links (fun vp n => vp.writtenOutside.count n = 0)
      (build (branching []) ⟨some ⟨6⟩, some ⟨1⟩, none⟩ (.ofDialect .glsl)) = true := by
    decide +kernel
  obtain ⟨a, ha, vp, hvp, hvs, fp, hfp, hfs, d, hd, hn⟩ := of_links nowhere
  refine ⟨a, ha, vp, hvp, hvs, fp, hfp, hfs, d, hd, fun once => ?_⟩
  have outside := once.outside
  rw [of_decide_eq_true hn] at outside
  cases outside

/-- A varying that is met before the branch is written once, at the one visit that came first. -/
theorem branching_first :
    ∃ p s id, Plan.make (branching [⟨1⟩]) (.ofDialect .glsl) [⟨6⟩, ⟨1⟩] = .ok p ∧
      run p [(.vertex, ⟨6⟩), (.fragment, ⟨1⟩)] = .ok s ∧
        ∃ v, s.firsts id = [v] ∧ v.isOutside = true := by
  have once : links (fun vp n => vp.writtenVaryings.count n = 1 && vp.writtenOutside.count n = 1)
      (build (branching [⟨1⟩]) ⟨some ⟨6⟩, some ⟨1⟩, none⟩ (.ofDialect .glsl)) = true := by
    decide +kernel
  obtain ⟨a, ha, vp, hvp, hvs, fp, hfp, hfs, d, hd, hn⟩ := of_links once
  obtain ⟨hall, houtside⟩ := Bool.and_eq_true_iff.1 hn
  obtain ⟨p, s, id, hmake, hrun, -, -, once⟩ := writesOnce_iff ha hvp hvs hfp hfs hd
  exact ⟨p, s, id, hmake, hrun, once.1 ⟨of_decide_eq_true hall, of_decide_eq_true houtside⟩⟩

end ShaderGraph
