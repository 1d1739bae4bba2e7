import ShaderGraph.Proofs.Entered
import ShaderGraph.Proofs.NumberingBuild
import ShaderGraph.Proofs.ScopedNodes
import ShaderGraph.Proofs.VariablesBuild

/-!
# Builds whose code is in scope

Generation composes code that is in scope (`generator_scopes`).

A program that a build hands over refers only to locals in scope, to members of uniform blocks that
it declares and to what is no local; and each question in generation was answered with names that
are in scope at the place of the question (`locals_in_scope`).
-/

namespace ShaderGraph

open Build BuildState Statement

namespace Build

variable {env : Env} {given : List Expr} {g : Generator} {id : NodeId} {s s' : BuildState}

/-! ### Varyings -/

/-- A varying is marked as one that a stage declares. -/
theorem mark_composes : Composes env given (modifyHere fun b =>
    { b with varyings := appendNew b.varyings id }) fun _ => [] :=
  fun _ _ _ => ⟨.modify (.of_moves (.of_same (fun _ h => h) (Nat.le_refl _) rfl rfl) rfl)
    (List.Subset.refl _) rfl, fun _ he => nomatch he⟩

/-- What goes on in the vertex program concerns no other stage. -/
theorem Composes.inVertex {step : Build Unit} (h : ∀ {env}, Composes env [] step fun _ => []) :
    Composes env given (inStage .vertex step) fun _ => [] := by
  intro s hs _
  have none' : ∀ {s : BuildState} {t cs}, s.Refers t cs [] := fun _ he => nomatch he
  rw [meets_inStage]
  unfold within
  split
  · exact (h s hs none').imp fun _ _ ⟨grows, _⟩ => ⟨grows, none'⟩
  · next hne =>
    have outside : s.Tidy env.plan .vertex [] := hs.outside .vertex
    refine (@h { env with stage := .vertex, loops := [] } s outside none').imp ?_
    exact fun _ _ ⟨grows, _⟩ => ⟨grows.aside (Ne.symm hne), none'⟩

variable {source : NodeId} {name : Option String} {interpolation : Interpolation}
  {sampling : Option Sampling}

theorem writeVarying_grows (hg : g.Scopes) {v : VaryingEntry}
    (hs : s.Tidy env.plan env.stage env.counters) (hv : s.namesOf (.varying id) = [v.name])
    (hn : env.plan.node id = .ok (.varying v.source name interpolation sampling)) :
    Meets (writeVarying g id v) env s (fun _ => True) fun _ s' =>
      s.Grows env.plan env.stage env.counters s' := by
  refine (meets_ite _ _ _).2 ⟨fun _ => .refl s, fun _ => ?_⟩
  have write : Composes env [] (inStage .vertex do
      let e ← g.value v.source v.type
      addStatement (.assign (.reference (.varying .vertex v.name)) e)
      modifyHere fun b => { b with varyings := appendNew b.varyings id }) fun _ => [] := by
    refine .inVertex (.bind (.value hg v.source v.type) fun e => .bind (.add rfl rfl ?_) fun _ =>
      mark_composes)
    exact fun _ _ hk h => .assign (Expr.refers_reference.2 (.inl (hk _ rfl))) (h e (.head _)) .nil
  show Meets (inStage .vertex _ >>= _) env s _ _
  rw [meets_bind]
  refine (write s hs fun _ he => nomatch he).imp fun _ s₁ ⟨grows, _⟩ => ?_
  have named : s₁.namesOf (.varying id) = [v.name] :=
    (grows.enters.keep (hv ▸ List.cons_ne_nil _ _)).trans hv
  have others : Meets (locateVarying id v) env s₁ (fun _ => True) fun _ s₂ =>
      s₂.stages = s₁.stages ∧ s₂.cache = s₁.cache ∧ s₂.visits = s₁.visits := by
    unfold locateVarying
    rw [meets_modify]
    split <;> exact ⟨rfl, rfl, rfl⟩
  refine ((locateVarying_listing hn named).and others).imp
    fun _ s₂ ⟨lists, stages, cache, visits⟩ => ?_
  have fills : s₁.Fills env.plan s₂ :=
    ⟨lists, fun u => stages ▸ List.Subset.refl _, congrArg NodeCache.records cache, visits⟩
  exact grows.trans fills.grows

theorem varying_composes (hg : g.Scopes)
    (hn : env.plan.node id = .ok (.varying source name interpolation sampling)) :
    Composes env given (buildVarying g id source name interpolation sampling) fun e => [e] := by
  refine .look .stage fun t => .check fun s hs hr => ?_
  rw [meets_bind]
  refine ((registerVarying_listing rfl hn hs.named).and
    (registerVarying_tabulates.and (registerVarying_still hn hs.named.sources))).imp ?_
  rintro v s₁ ⟨⟨lists, rfl, names⟩, ⟨tabulates, -⟩, entering, -⟩
  have fills : s.Fills env.plan s₁ :=
    fills_of_tabulates lists tabulates (congrArg Still.cache entering.1)
  have grows : s.Grows env.plan env.stage env.counters s₁ := fills.grows
  rw [meets_bind]
  refine (writeVarying_grows hg (grows.tidy hs) names hn).imp fun _ s₂ written => ?_
  have whole := grows.trans written
  have rest : Composes env given (do
      if t = .fragment then modifyHere fun b => { b with varyings := appendNew b.varyings id }
      return Expr.reference (.varying t v.name)) fun e => [e] := by
    have input : ∀ {given}, Follows given [Expr.reference (.varying t v.name)] :=
      follows_reference rfl
    exact .ite (fun _ => .bind mark_composes fun _ => .pure input) fun _ => .pure input
  exact (rest s₂ (whole.tidy hs) (whole.refers hr)).imp fun _ _ h => ⟨whole.trans h.1, h.2⟩

/-! ### All nodes -/

variable {n : Node}

/-- The code of a node is in scope. -/
theorem generateNode_composes (hg : g.Scopes) (hn : env.plan.node id = .ok n) :
    Composes env [] (generateNode g id n) Option.toList := by
  have kind : ∀ {m : Node}, n = m → m.mayBind = true →
      ∃ m, env.plan.node id = .ok m ∧ m.mayBind = true := fun he hm => ⟨_, he ▸ hn, hm⟩
  cases n with
  | const type values => exact .map some (constant_composes type values)
  | uniform name type group update value => exact uniform_composes id name type group update value g
  | meshAttribute name type => exact .map some (attribute_composes name type)
  | varying source name interpolation sampling => exact .map some (varying_composes hg hn)
  | property name type => exact .map some (property_composes name type)
  | builtin b => exact .map some (builtin_composes b)
  | texture name uv level =>
    exact .buildTemp (kind rfl rfl) (.map some (texture_composes hg name uv level))
  | storageBuffer name element count access =>
    exact .map some (storage_composes name element count access)
  | var value name readOnly =>
    exact .map some (buildVariable_composes hg (kind rfl rfl) value name readOnly)
  | assign target value op =>
    exact .bind (buildAssign_composes hg target value op) fun _ => .pure follows_nil
  | operator op left right =>
    exact .buildTemp (kind rfl rfl) (.map some (operator_composes hg op left right))
  | unary op operand => exact .buildTemp (kind rfl rfl) (unary_composes hg op operand)
  | math method args =>
    exact .buildTemp (kind rfl rfl) (.map some (math_composes hg id method args))
  | split source components => exact split_composes hg source components
  | join parts type => exact .buildTemp (kind rfl rfl) (.map some (join_composes hg id parts))
  | convert source target => exact .buildTemp (kind rfl rfl) (convert_composes hg source target)
  | conditional condition thenNode elseNode =>
    exact conditional_composes hg (kind rfl rfl) condition thenNode elseNode
  | loop params body => exact .bind (loop_composes hg params body) fun _ => .pure follows_nil
  | loopIndex loop param => exact .map some (counter_composes loop param)
  | jump j => exact .bind (jump_composes j) fun _ => .pure follows_nil
  | stack nodes output => exact stack_composes hg nodes output
  | structType name members => exact .fail
  | struct layout values =>
    exact .buildTemp (kind rfl rfl) (.map some (struct_composes hg id values))
  | array element values =>
    exact .buildTemp (kind rfl rfl) (.map some (array_composes hg element values))
  | member base name => exact member_composes hg base name
  | index base i => exact index_composes hg base i
  | call function args => exact call_composes hg (kind rfl rfl) function args
  | context inner values =>
    intro s hs hr
    show Meets (inContext id values (g.emit inner)) env s _ _
    rw [meets_inContext]
    have fills : s.Fills env.plan
        { s with frames := (s.frames.extend (Frame.current env.frames) id).2 } :=
      ⟨⟨.of_eq rfl rfl rfl rfl rfl, rfl⟩, fun _ => List.Subset.refl _, rfl, rfl⟩
    have grows : s.Grows env.plan env.stage env.counters _ := fills.grows
    have step : Composes (inside env (s.frames.extend (Frame.current env.frames) id).1 values) []
        (g.emit inner) Option.toList := hg.emit inner
    exact (step _ (grows.tidy hs) (grows.refers hr)).imp fun _ _ h => ⟨grows.trans h.1, h.2⟩
  | contextValue key fallback =>
    intro s hs hr
    show Meets (withContextValue key fallback g.emit) env s _ _
    rw [meets_withContextValue]
    split
    · next c outer _ => exact @Generator.Scopes.emit g hg { env with frames := outer } c s hs hr
    · next c _ => exact hg.emit c s hs hr
    · trivial
  | cache inner shares =>
    intro s hs hr
    unfold generateNode
    rw [meets_bind, meets_cacheScope, meets_inScope]
    have fills : s.Fills env.plan { s with cache := (s.cache.scopeFor env.scope id shares).2 } :=
      ⟨⟨.of_eq rfl rfl rfl rfl rfl, rfl⟩, fun _ => List.Subset.refl _,
        NodeCache.records_scopeFor, rfl⟩
    have grows : s.Grows env.plan env.stage env.counters _ := fills.grows
    have step : Composes { env with scope := (s.cache.scopeFor env.scope id shares).1 } []
        (g.emit inner) Option.toList := hg.emit inner
    exact (step _ (grows.tidy hs) (grows.refers hr)).imp fun _ _ h => ⟨grows.trans h.1, h.2⟩
  | remap => exact .fail
  | custom => exact .fail

/-- What asks for the name of a node first uses it where it can be seen. -/
theorem reuses_of_ask {b : BoundName} {next : Option String → Build (Option Expr)}
    (hb : s.cache.bound? (keyAt env s id) = some b) (hv : (visitAt env s id none).Sees b)
    (hn : next (some b.name) = pure (some (localName b.name))) :
    Meets (boundName? id >>= next) env s (fun _ => True) fun code _ =>
      code = some (localName b.name) := by
  rw [meets_bind]
  refine meets_boundName.imp ?_
  rintro name s' ⟨rfl, names⟩
  rw [(names b.name).2 ⟨b, hb, hv, rfl⟩, hn]
  rfl

/-- The answer for a node that may be bound is the name that it is bound to, where that can be seen. -/
theorem generateNode_reuses {b : BoundName} (hm : n.mayBind = true)
    (hb : s.cache.bound? (keyAt env s id) = some b) (hv : (visitAt env s id none).Sees b) :
    Meets (generateNode g id n) env s (fun _ => True) fun code _ =>
      code = some (localName b.name) := by
  cases n with
  | texture | operator | unary | math | join | convert | struct | array =>
    exact reuses_of_ask hb hv rfl
  | conditional | call => exact reuses_of_ask hb hv rfl
  | var value name readOnly =>
    rw [generateNode, meets_map, buildVariable, meets_bind]
    refine meets_boundName.imp ?_
    rintro name s' ⟨rfl, names⟩
    rw [(names b.name).2 ⟨b, hb, hv, rfl⟩]
    rfl
  | _ => cases hm

/-- The answer for the counter of a loop is that of the innermost loop that is meant. -/
theorem counter_answers {loop : NodeId} {param : Nat} :
    Meets (generateNode g id (.loopIndex loop param)) env s (fun _ => True) fun code _ => ∃ m l,
      env.plan.resolve loop = .ok m ∧
        env.loops.find? (fun l => l.node = m ∧ l.param = param) = some l ∧
          code = some (localName l.counter) := by
  rw [generateNode, meets_map, buildCounter, meets_bind, meets_resolve]
  cases hm : env.plan.resolve loop with
  | error e => trivial
  | ok m =>
    dsimp only
    rw [meets_bind, meets_read]
    split
    · next l hl => exact ⟨m, l, rfl, hl, rfl⟩
    · trivial

/-- What is true of the answer to the question for a node. -/
theorem generateNode_inScope (hn : env.plan.node id = .ok n)
    (hs : s.Tidy env.plan env.stage env.counters) :
    Meets (generateNode g id n) env s (fun _ => True) fun code _ =>
      (visitAt env s id code).InScope env.plan := by
  have once := (hs.sound env.stage).nodup
  rw [if_pos rfl] at once
  have reused : Meets (generateNode g id n) env s (fun _ => True) fun code _ =>
      ∀ b, s.cache.bound? (keyAt env s id) = some b → (visitAt env s id none).Sees b →
        code = some (localName b.name) := by
    cases hb : s.cache.bound? (keyAt env s id) with
    | none => exact (meets_true _).imp fun _ _ _ _ hb' => nomatch hb'
    | some b =>
      obtain ⟨m, hm, hbind⟩ := (hs.holding env.stage (keyAt env s id) b rfl hb).kind
      cases hn.symm.trans hm
      by_cases hv : (visitAt env s id none).Sees b
      · refine (generateNode_reuses hbind hb hv).imp fun code _ hcode b' hb' _ => ?_
        exact Option.some.inj hb' ▸ hcode
      · refine (meets_true _).imp fun code _ _ b' hb' hv' => absurd ?_ hv
        exact Option.some.inj hb' ▸ hv'
  have counted : Meets (generateNode g id n) env s (fun _ => True) fun code _ =>
      ∀ loop param, n = .loopIndex loop param → ∃ m l, env.plan.resolve loop = .ok m ∧
        env.loops.find? (fun l => l.node = m ∧ l.param = param) = some l ∧
          code = some (localName l.counter) := by
    cases n with
    | loopIndex loop param =>
      refine counter_answers.imp fun code _ h => ?_
      rintro _ _ ⟨⟩
      exact h
    | _ => exact (meets_true _).imp fun _ _ _ _ _ hn' => nomatch hn'
  refine (reused.and counted).imp fun code _ ⟨hr, hc⟩ => ⟨once, fun b hb hv => ⟨hr b hb hv, ?_⟩, ?_⟩
  · exact hs.declared rfl hb hv.2
  · intro loop param hn'
    exact hc loop param (Except.ok.inj (hn.symm.trans hn'))

/-! ### Generation -/

/-- Generation composes code that is in scope, and answers each question with what is in scope. -/
theorem generator_scopes (fuel : Nat) : (generator fuel).Scopes := by
  induction fuel with
  | zero => exact ⟨fun _ _ _ _ => trivial, fun _ _ _ _ => trivial⟩
  | succ fuel ih =>
    refine ⟨fun id s hs hr => ?_, fun id => buildPlace_composes ih id⟩
    refine meets_emitNode (fun _ => trivial) fun m n _ hn => ?_
    refine ((generateNode_composes ih hn s hs hr).and (generateNode_inScope hn hs)).imp ?_
    rintro code s' ⟨⟨grows, refers⟩, told⟩
    exact ⟨.visit hs grows rfl rfl told refers, refers⟩

theorem generateRoot_composes (t : Stage) (root : NodeId) :
    Composes env [] (generateRoot t root) Option.toList := by
  have depth : Law.looking.Keeps env depthBound := .read (.pure _)
  refine .look depth fun fuel => ?_
  have hg := generator_scopes fuel
  cases t with
  | vertex | fragment => exact .map some (.value hg root .vec4)
  | compute =>
    refine .bind (.emit hg root) fun e => .ite (fun _ => ?_) fun _ => .pure follows_nil
    exact .fill (.discard (typeOf_fills root)) fun _ => .pure follows_nil

end Build

/-! ### Stages -/

namespace BuildState

variable {p : Plan} {t : Stage} {s s' : BuildState}

/-- The entry points are in order, between the programs of two stages. -/
structure Stands (p : Plan) (s : BuildState) : Prop where
  tidy : s.Tidy p .vertex []
  adds : ∀ u, StageBuild.Adds (s.knows u) [] .start (s.stages.get u)
  output : ∀ u e, (s.stages.get u).output = some e →
    e.Refers (s.knows u) (s.stages.get u).visible

/-- The innermost block of each stage grows. -/
theorem Grows.all (h : s.Grows p t [] s') (u : Stage) :
    StageBuild.Adds (s'.knows u) [] (s.stages.get u) (s'.stages.get u) := by
  by_cases hu : u = t
  · exact hu ▸ h.adds
  by_cases hv : u = .vertex
  · exact hv ▸ h.vertex fun ht => hu (hv.trans ht.symm)
  · exact .of_body (h.others u hu hv)

theorem Stands.grows (hs : s.Stands p) (h : s.Grows p t [] s') : s'.Stands p where
  tidy := (h.tidy (hs.tidy.outside t)).outside .vertex
  adds u := ((hs.adds u).mono (h.knows u)).trans (h.all u)
  output u e he :=
    (hs.output u e ((h.retains u).output ▸ he)).mono (h.knows u) (h.all u).visible_subset

/-- The output of a stage is written down. -/
theorem Stands.finish {output : Option Expr} (hs : s.Stands p)
    (ho : s.Refers t [] output.toList) :
    { s with stages := s.stages.modify t fun b => { b with output := output } }.Stands p := by
  let s₀ : BuildState :=
    { s with stages := s.stages.modify t fun b => { b with output := output } }
  have same {α : Type} (g : StageBuild → α) (hg : ∀ b, g { b with output := output } = g b)
    (u : Stage) :
      g (s₀.stages.get u) = g (s.stages.get u) := s.stages.map_get_modify t u hg
  have enters : s.Enters p s₀ := .of_eq rfl rfl rfl rfl rfl
  have names := same StageBuild.names fun _ => rfl
  have stack := same StageBuild.stack fun _ => rfl
  have visible := same StageBuild.visible fun _ => rfl
  have properties := same StageBuild.propertyNames fun _ => rfl
  have knows : ∀ u r, s.knows u r → s₀.knows u r := fun u => by
    refine knows_mono enters ?_ ?_
    · exact (same StageBuild.groups (fun _ => rfl) u) ▸ List.Subset.refl _
    · exact properties u ▸ List.Subset.refl _
  refine ⟨⟨enters.named hs.tidy.named, fun u => ?_, fun u k b hk hb => ?_, ?_⟩, fun u => ?_,
    fun u e he => ?_⟩
  · obtain ⟨nodup, used, ids, below, tops⟩ := hs.tidy.sound u
    refine ⟨?_, ?_, ?_, ?_, ?_⟩
    · rw [visible, properties]
      exact nodup
    · rw [visible, properties, names]
      exact used
    · rw [stack]
      exact ids
    · rw [stack, same StageBuild.nextBlock fun _ => rfl]
      exact below
    · rw [same StageBuild.locals fun _ => rfl, same StageBuild.properties fun _ => rfl]
      exact tops
  · obtain ⟨kind, used, below, declared, alone⟩ := hs.tidy.holding u k b hk hb
    refine ⟨kind, names u ▸ used, ?_, ?_, alone⟩
    · rw [same StageBuild.nextBlock fun _ => rfl]
      exact below
    · rw [stack]
      exact declared
  · obtain ⟨told, known, used, alone, apart⟩ := hs.tidy.logged
    exact ⟨told, fun v hv => (known v hv).mono knows, fun v hv u b hk hb =>
      names u ▸ used v hv u b hk hb, alone, apart⟩
  · refine ((hs.adds u).mono (knows u)).trans (.of_moves (.of_same ?_ ?_ ?_ ?_) (stack u))
    · rw [names]
      exact fun _ h => h
    · exact Nat.le_of_eq (same StageBuild.nextBlock (fun _ => rfl) u).symm
    · exact same StageBuild.properties (fun _ => rfl) u
    · exact same StageBuild.locals (fun _ => rfl) u
  · rw [visible]
    by_cases hu : u = t
    · subst hu
      rw [PerStage.get_modify, if_pos rfl] at he
      refine (ho e (Option.mem_toList.2 he)).mono (knows u) ?_
      exact fun n hn => (List.mem_append.1 hn).elim id nofun
    · rw [PerStage.get_modify, if_neg hu] at he
      exact (hs.output u e he).mono (knows u) (List.Subset.refl _)

end BuildState

namespace Build

variable {p : Plan} {active : List Stage} {rs : List (Stage × NodeId)} {s s' : BuildState}

/-- After a stage was generated the entry points are in order. -/
theorem generateStage_stands {t : Stage} {root : NodeId} (hs : s.Stands p) :
    Meets (generateStage root) (Env.root p active t) s (fun _ => True) fun _ s' => s'.Stands p := by
  unfold generateStage
  rw [meets_bind]
  show Meets (generateRoot t root >>= _) _ s _ _
  rw [meets_bind]
  have tidy : s.Tidy p t [] := hs.tidy.outside t
  refine (@generateRoot_composes (Env.root p active t) t root s tidy nofun).imp ?_
  rintro output s₁ ⟨grows, refers⟩
  exact (hs.grows grows).finish refers

/-- After all stages were generated the entry points are in order. -/
theorem generate_stands (hs : s.Stands p) (h : atRoots p active generateStage rs s = .ok s') :
    s'.Stands p := by
  induction rs generalizing s with
  | nil =>
    cases h
    exact hs
  | cons r rest ih =>
    have first : Meets (generateStage r.2) (Env.root p active r.1) s (fun _ => True)
        fun _ s' => s'.Stands p := generateStage_stands hs
    rw [atRoots, atRoot] at h
    cases hr : generateStage r.2 (Env.root p active r.1) s with
    | error f =>
      rw [hr] at h
      cases h
    | ok done =>
      rw [hr] at h
      exact ih (first.post hr) h

/-- The entry points are in order when nothing was generated. -/
theorem stands_of_surveys (hs : (BuildState.start p).Surveys p s)
    (hq : (BuildState.start p).Quiet s) :
    s.Stands p := by
  have bodies : ∀ u, (s.stages.get u).body = StageBuild.start.body := fun u => by
    refine (congrFun hs.bodies u).trans ?_
    cases u <;> rfl
  have sound : StageBuild.Sound [] StageBuild.start := by
    refine ⟨List.nodup_nil, nofun, List.nodup_singleton _, fun block hb => ?_, rfl⟩
    exact List.mem_singleton.1 hb ▸ Nat.one_pos
  have unbound : ∀ k b, s.cache.bound? k ≠ some b := fun k b hb => by
    rw [hq.bound k] at hb
    cases hb
  refine ⟨⟨hs.named (named_start p), fun u => ?_, fun u k b _ hb => absurd hb (unbound k b), ?_⟩,
    fun u => .of_body (bodies u), fun u e he => ?_⟩
  · rw [ite_self]
    exact sound.of_body (bodies u)
  · have silent : ∀ v, v ∉ s.visits := by
      rw [hq.visits]
      exact fun _ => List.not_mem_nil
    exact ⟨fun v hv => absurd hv (silent v), fun v hv => absurd hv (silent v),
      fun v hv => absurd hv (silent v), fun v hv => absurd hv (silent v),
      fun v hv => absurd hv (silent v)⟩
  · rw [show (s.stages.get u).output = none from congrArg EntryPoint.output (bodies u)] at he
    cases he

end Build

/-! ## The local names of programs -/

open Build Statement

/-- What may be referred to everywhere in the entry point of a program: the locals that are declared
at its top, and the members of the uniform blocks that the program declares. -/
def Program.Knows (prog : Program) : Reference → Prop
  | .local n => n ∈ bound prog.locals
  | .uniform inst member => ∃ u ∈ prog.uniforms, u.inst = inst ∧ member ∈ u.members.map Prod.fst
  | _ => True

/-- The entry point of a program declares each local once and refers only to locals in scope. -/
structure Program.InScope (prog : Program) : Prop where
  /-- The declarations at the top have no values. -/
  tops : ∀ st ∈ prog.locals, ∃ name type, st = .declare name type none .mutable none
  body : Scoped prog.Knows [] prog.body
  output : ∀ e, prog.output = some e → e.Refers prog.Knows (bound prog.body)
  once : (bound prog.locals ++ boundIn prog.body).Nodup

namespace BuildState

variable {p : Plan} {s : BuildState} {t : Stage} {prog : Program}

theorem group_of_namesOf {group block inst : String}
    (h : s.namesOf (.group group) = [block, inst]) :
    ∃ g, s.groups.get? group = some g ∧ g.block = block ∧ g.inst = inst := by
  rw [namesOf] at h
  cases hg : s.groups.get? group with
  | none =>
    rw [hg] at h
    cases h
  | some g =>
    rw [hg] at h
    cases h
    exact ⟨g, rfl, rfl, rfl⟩

theorem uniform_of_namesOf {key : UniformKey} {member : String}
    (h : s.namesOf (.member key) = [member]) :
    ∃ u, s.uniforms.get? key = some u ∧ u.member = member := by
  rw [namesOf] at h
  cases hu : s.uniforms.get? key with
  | none =>
    rw [hu] at h
    cases h
  | some u =>
    rw [hu] at h
    cases h
    exact ⟨u, rfl, rfl⟩

/-- What a stage knows its program does. -/
theorem Presents.knows (h : s.Presents p t prog) (sound : StageBuild.Sound [] (s.stages.get t))
    (hg : s.inputs.Grouped) : ∀ r, s.knows t r → prog.Knows r := by
  intro r hr
  cases r with
  | «local» n =>
    show n ∈ bound prog.locals
    rw [h.locals, sound.tops]
    obtain ⟨v, hv, rfl⟩ := List.mem_map.1 hr
    exact List.mem_filterMap.2 ⟨_, List.mem_map_of_mem hv, rfl⟩
  | uniform inst member =>
    obtain ⟨group, hgroup, ⟨block, hblock⟩, name, hname⟩ := hr
    obtain ⟨g, found, -, rfl⟩ := group_of_namesOf hblock
    obtain ⟨u, hu, rfl⟩ := uniform_of_namesOf hname
    refine ⟨⟨g.block, g.inst, g.binding.getD 0, g.members⟩, ?_, rfl, ?_⟩
    · rw [h.uniforms, sortByNumber, mem_sortBy]
      exact List.mem_filterMap.2 ⟨group, hgroup, by rw [uniformBlock?, found]; rfl⟩
    · show u.member ∈ g.members.map Prod.fst
      rw [hg.members group g found, InputTables.membersOf, List.map_map]
      have own : (⟨name, group⟩, u) ∈ s.uniforms.entries.filter fun e => e.1.group = group :=
        List.mem_filter.2 ⟨OrderedMap.mem_of_find? hu, decide_eq_true rfl⟩
      exact List.mem_map_of_mem own
  | _ => trivial

/-- When the entry points are in order only their outermost blocks are left. -/
theorem Stands.inner_eq_nil (hs : s.Stands p) (t : Stage) : (s.stages.get t).inner = [] := by
  obtain ⟨new, -, -, stack⟩ := hs.adds t
  have length := congrArg List.length stack
  rw [StageBuild.stack, List.length_append] at length
  exact List.length_eq_zero_iff.1 (Nat.succ.inj length)

/-- No two statements of a stage declare one name. -/
theorem Stands.nodup_boundIn (hs : s.Stands p) (t : Stage) :
    (boundIn (s.stages.get t).outer.statements).Nodup := by
  obtain ⟨new, -, moves, stack⟩ := hs.adds t
  have stack : (s.stages.get t).stack = [⟨⟨0⟩, new⟩] := stack
  have last := congrArg List.getLast? stack
  rw [StageBuild.stack, List.getLast?_append] at last
  have outer : (s.stages.get t).outer.statements = new :=
    congrArg Block.statements (Option.some.inj last)
  exact outer ▸ moves.once

/-- The program of a stage is in scope when its entry point is in order. -/
theorem Presents.inScope (h : s.Presents p t prog) (hs : s.Stands p) (hg : s.inputs.Grouped) :
    prog.InScope := by
  have sound := hs.tidy.sound t
  rw [ite_self] at sound
  have known := h.knows sound hg
  obtain ⟨new, refer, moves, stack⟩ := hs.adds t
  -- only the outermost block is left, and it holds what was added
  have stack : (s.stages.get t).stack = [⟨⟨0⟩, new⟩] := stack
  have outer : prog.body = new ∧ (s.stages.get t).visible = bound new := by
    refine ⟨?_, ?_⟩
    · rw [h.body]
      have last := congrArg List.getLast? stack
      rw [StageBuild.stack, List.getLast?_append] at last
      exact congrArg Block.statements (Option.some.inj last)
    · rw [StageBuild.visible, stack, List.flatMap_singleton]
  obtain ⟨rfl, visible⟩ := outer
  obtain ⟨more, -, locals, nodup, apart⟩ := moves.properties
  have tops : bound prog.locals = more.map Prod.snd := by
    rw [h.locals, locals, bound]
    exact (List.filterMap_map ..).trans (List.filterMap_eq_map ▸ rfl)
  refine ⟨fun st hst => ?_, refer.mono known fun _ => .rfl, fun e he => ?_, ?_⟩
  · obtain ⟨v, -, rfl⟩ := List.mem_map.1 (sound.tops ▸ h.locals ▸ hst)
    exact ⟨v.2, v.1, rfl⟩
  · exact visible ▸ (hs.output t e (h.output ▸ he)).mono known (List.Subset.refl _)
  · rw [tops]
    refine List.nodup_append.2 ⟨nodup, moves.once, ?_⟩
    rintro n hn _ hn' rfl
    exact (apart n hn).2.2 hn'

end BuildState

/-! ### Builds -/

namespace Build

/-- What a run leaves behind is in order. -/
theorem run_stands {p : Plan} {rs : List (Stage × NodeId)} {s : BuildState} (h : run p rs = .ok s) :
    s.Stands p := by
  obtain ⟨s₀, hanalyze, hgenerate⟩ := of_run h
  have quiet := (analyze_covers _ hanalyze).2.1
  exact generate_stands (stands_of_surveys (analyze_surveys hanalyze) quiet) hgenerate

end Build

variable {g : Graph} {request : BuildRequest} {options : BuildOptions} {host : Host} {a : Artifact}

/-- The programs of a build are in scope. -/
theorem inScope_of_build (h : build g request options host = .ok a) :
    ∀ prog ∈ a.programs, prog.InScope := by
  obtain ⟨p, s, -, hrun, assembles, records⟩ := recorded_of_build h
  have grouped := records.grouped (InputTables.grouped_start p)
  exact fun prog hprog => (assembles.programs prog hprog).inScope (run_stands hrun) grouped

/-- Each question in generation is answered with names that are in scope at its place, a name is
bound for one node of a stage only, and each program of a build declares a local once and refers
only to locals in scope. -/
theorem locals_in_scope (h : build g request options host = .ok a) : ∃ p s,
    Plan.make g options (request.roots.map Prod.snd) host = .ok p ∧ run p request.roots = .ok s ∧
      (∀ v ∈ s.visits, v.InScope p) ∧
      (∀ v ∈ s.visits, ∀ v' ∈ s.visits, ∀ t b b', v.key.stage = some t → v'.key.stage = some t →
        v.bound = some b → v'.bound = some b' → b.name = b'.name → v.key = v'.key) ∧
      a.programs.map ProgramOf.stage = request.stages ∧ ∀ prog ∈ a.programs, prog.InScope := by
  obtain ⟨p, s, hmake, hrun, assembles, -⟩ := recorded_of_build h
  have stands := run_stands hrun
  exact ⟨p, s, hmake, hrun, stands.tidy.logged.told, stands.tidy.logged.apart, assembles.stages,
    inScope_of_build h⟩

/-- A variable that is declared before a branch and assigned to in it is found there: the block
around the branch declares its name. -/
theorem assigned_in_scope : ∃ a, build (assigned [⟨1⟩]) ⟨none, some ⟨5⟩, none⟩ .standard = .ok a ∧
    (∀ prog ∈ a.programs, prog.InScope) ∧
      ∃ s, run (.ofGraph (assigned [⟨1⟩]) .standard) [(.fragment, ⟨5⟩)] = .ok s ∧
        ∃ v ∈ s.visits, v.entry.inner ≠ [] ∧ v.code = some (localName "acc") ∧
          ∃ b : BoundName, b.name = "acc" ∧ b.DeclaredIn v.key v.entry.stack := by
  have succeeds : achieves (fun _ => true)
      (build (assigned [⟨1⟩]) ⟨none, some ⟨5⟩, none⟩ .standard) = true := by
    decide +kernel
  have found : leaves (fun s => s.visits.any fun v => v.entry.inner.length = 1 &&
        v.bound.any fun b => b.name = "acc" && v.entry.isOpen b.block &&
          b.frame.all fun f => f = Frame.current v.frames)
      (run (.ofGraph (assigned [⟨1⟩]) .standard) [(.fragment, ⟨5⟩)]) = true := by
    decide +kernel
  obtain ⟨a, ha, -⟩ := of_achieves succeeds
  obtain ⟨p, s, hmake, hrun, told, -, -, programs⟩ := locals_in_scope ha
  obtain ⟨s', hs', hany⟩ := of_leaves found
  have plan : Plan.make (assigned [⟨1⟩]) .standard [⟨5⟩] =
      .ok (.ofGraph (assigned [⟨1⟩]) .standard) := rfl
  cases plan.symm.trans hmake
  cases hrun.symm.trans hs'
  obtain ⟨v, hv, hfound⟩ := List.any_eq_true.1 hany
  simp only [Bool.and_eq_true, decide_eq_true_eq, Option.any_eq_true, Option.all_eq_true] at hfound
  obtain ⟨inner, b, bound, ⟨name, isOpen⟩, frame⟩ := hfound
  obtain ⟨code, declared⟩ := (told v hv).reused b bound ⟨frame, isOpen⟩
  refine ⟨a, ha, programs, s, hrun, v, hv, fun none' => ?_, name ▸ code, b, name, declared⟩
  rw [none'] at inner
  cases inner

end ShaderGraph
