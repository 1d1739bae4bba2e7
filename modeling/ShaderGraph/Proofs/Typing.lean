import ShaderGraph.Proofs.Includes
import ShaderGraph.Proofs.Walk

/-!
# What finding types leaves alone

Finding the type of a node numbers contexts, keeps types and reads native functions. It leaves
alone what is known about the nodes, the varyings, the visits and the statements
(`typeOf_still`). Entering a varying only adds it to the varyings (`registerVarying_still`).
-/

namespace ShaderGraph

/-- What finding types leaves alone. -/
structure Still where
  cache : NodeCache
  varyings : OrderedMap NodeId VaryingEntry
  visits : List Visit
  inner : Stage → List Block
  outer : Stage → Block

/-- The part of a state that finding types leaves alone. -/
def BuildState.still (s : BuildState) : Still where
  cache := s.cache
  varyings := s.varyings
  visits := s.visits
  inner t := (s.stages.get t).inner
  outer t := (s.stages.get t).outer

theorem still_of_core {s s' : BuildState} (h : s'.core = s.core) : s'.still = s.still :=
  congrArg (fun c : Core => (⟨c.cache, c.varyings, c.visits, c.inner, c.outer⟩ : Still)) h

/-- What finding types keeps to. -/
def Law.typing : Law where
  inv _ _ := True
  rel _ s s' := s'.still = s.still
  ends _ := True
  refl _ := rfl
  trans h h' := h'.trans h
  mono _ _ := trivial
  loops _ _ := trivial
  ordinary _ := trivial
  located _ := trivial

/-- The varyings of a table are those of the plan. -/
def VaryingsFrom (p : Plan) (vs : OrderedMap NodeId VaryingEntry) : Prop :=
  ∀ id v, vs.get? id = some v →
    ∃ name interpolation sampling, p.node id = .ok (.varying v.source name interpolation sampling)

theorem VaryingsFrom.put {p : Plan} {vs : OrderedMap NodeId VaryingEntry} (h : VaryingsFrom p vs)
    {id : NodeId} {v : VaryingEntry} {name : Option String} {interpolation : Interpolation}
    {sampling : Option Sampling}
    (hn : p.node id = .ok (.varying v.source name interpolation sampling)) :
    VaryingsFrom p (vs.put id v) := by
  intro id' v' hv'
  rw [OrderedMap.get?_put] at hv'
  split at hv'
  · next he =>
    cases hv'
    exact he ▸ ⟨name, interpolation, sampling, hn⟩
  · exact h id' v' hv'

/-- What entering a varying of the plan keeps to. -/
def Law.enteringVarying (p : Plan) : Law where
  inv _ _ := True
  rel _ s s' := s'.still = { s.still with varyings := s'.varyings } ∧
    (VaryingsFrom p s.varyings → VaryingsFrom p s'.varyings)
  ends _ := True
  refl _ := ⟨rfl, id⟩
  trans h h' := ⟨by rw [h'.1, h.1], h'.2 ∘ h.2⟩
  mono _ _ := trivial
  loops _ _ := trivial
  ordinary _ := trivial
  located _ := trivial

/-- What does not write varyings keeps to. -/
def Law.unwriting (id : NodeId) : Law where
  inv _ s := Build.isWritten s id = false
  rel _ s s' := ∀ j, Build.isWritten s' j = Build.isWritten s j
  ends _ := True
  refl _ _ := rfl
  trans h h' j := (h' j).trans (h j)
  mono hi hr := (hr _).trans hi
  loops _ hi := hi
  ordinary _ := trivial
  located _ := trivial

/-- A law that says nothing about contexts, types and failures. -/
structure Law.Indifferent (L : Law) : Prop where
  ends : ∀ f, L.ends f
  surroundings : ∀ {env env' s}, L.inv env s → env'.plan = env.plan → env'.stage = env.stage →
    L.inv env' s
  types : ∀ s frames types, L.rel [] s { s with frames := frames, types := types }
  functions : ∀ {env} f, L.Keeps env (Build.registerFunction f)

/-- A law about what finding types leaves alone, whatever a step fails with. -/
structure Law.Unmoved (L : Law) : Prop where
  ends : ∀ f, L.ends f
  rel : ∀ {env s s'}, L.inv env s → s'.still = s.still → L.rel [] s s'
  names : ∀ n, L.names n := by exact fun _ => trivial

theorem Law.Unmoved.keeps {L : Law} (h : L.Unmoved) {env : Env} {α : Type} {step : Build α}
    (hs : Law.typing.Keeps env step) : L.Keeps env step :=
  fun s hi => (hs s trivial).mono (fun f _ => h.ends f) fun _ _ hr => h.rel hi hr

theorem Law.Unmoved.tabular {L : Law} (h : L.Unmoved) : L.Tabular True where
  exhausted _ := h.ends _
  founded _ := absurd trivial
  rel hi hcore := h.rel hi (still_of_core hcore)
  names := h.names

namespace Build

open Law

variable {env : Env}

theorem typing_ofTables {α : Type} {step : Build α} (h : (Law.tables True).Keeps env step) :
    Law.typing.Keeps env step :=
  .ofTables (fun _ => trivial) (fun _ _ _ => still_of_core) fun _ _ => h

theorem registerFunctionIn_still (fuel : Nat) (path : List FunctionId) (id : FunctionId) :
    Law.typing.Keeps env (registerFunctionIn fuel path id) :=
  .registerFunctionIn (L := Law.typing) trivial (fun _ _ _ => rfl) (fun _ _ _ => rfl)
    (fun _ _ _ _ => rfl) fuel path id

theorem registerFunction_still (id : FunctionId) : Law.typing.Keeps env (registerFunction id) := by
  intro s hs
  rw [meets_registerFunction]
  exact registerFunctionIn_still _ _ _ s hs

theorem useFunctionIn_still (fuel : Nat) (id : FunctionId) :
    Law.typing.Keeps env (useFunctionIn fuel id) :=
  .useFunctionIn (L := Law.typing) trivial
    (fun _ => typing_ofTables (markType_tables (absurd trivial))) registerFunction_still
    (fun _ => typing_ofTables (tables_modifyHere (fun _ => rfl) fun _ => rfl)) fuel id

theorem useFunction_still (id : FunctionId) : Law.typing.Keeps env (useFunction id) := by
  intro s hs
  unfold useFunction includeDepth
  rw [meets_bind, meets_bind, meets_read, meets_pure]
  exact useFunctionIn_still _ id s hs

/-- Finding a type keeps to a law that is indifferent to contexts and types. -/
theorem typeOfIn_indifferent {L : Law} (hL : L.Indifferent) (fuel : Nat) (id : NodeId) :
    L.Keeps env (typeOfIn fuel id) := by
  induction fuel generalizing env id with
  | zero => exact fun _ _ => hL.ends _
  | succ fuel ih =>
    rw [typeOfIn]
    refine .resolve fun m _ => .read (.get fun s => ?_)
    split
    · exact .pure _
    refine .bind ?_ fun t => .bind (fun s _ => hL.types s s.frames _) fun _ => .pure _
    have typed : ∀ {env}, L.Keeps env (do typeOfNode (typeOfIn fuel) m (← node m)) := by
      refine fun {env} => .node fun n _ => ?_
      -- contexts are numbered on the way, so the two lexical nodes are not among the rest
      by_cases hl : n.isLexical
      · cases n with
        | context inner values =>
          intro s hi
          show Meets (inContext m values (typeOfIn fuel inner)) env s _ _
          rw [meets_inContext]
          have grown := hL.types s (s.frames.extend (Frame.current env.frames) m).2 s.types
          refine (ih inner _ ?_).imp fun _ s' hr => L.trans grown hr
          exact hL.surroundings (L.mono hi grown) rfl rfl
        | contextValue key fallback =>
          intro s hi
          show Meets (withContextValue key fallback (typeOfIn fuel)) env s _ _
          rw [meets_withContextValue]
          split
          · refine ih _ s ?_
            exact hL.surroundings hi rfl rfl
          · exact ih _ s hi
          · exact hL.ends _
        | _ => cases hl
      · refine .typeOfNode hL.functions ?_ ?_ fun c _ => ih c
        · rintro inner values rfl
          exact hl rfl
        · rintro key fallback rfl
          exact hl rfl
    refine .read (.when (fun _ _ _ => hL.ends _) fun _ s hi => typed.located s ?_)
    exact hL.surroundings hi rfl rfl

theorem typeOf_indifferent {L : Law} (hL : L.Indifferent) (id : NodeId) :
    L.Keeps env (typeOf id) :=
  .bind (.read (.pure _)) fun fuel => typeOfIn_indifferent hL fuel id

/-- Finding a type leaves alone what is known about the nodes, the varyings and the statements. -/
theorem typeOf_still (id : NodeId) : Law.typing.Keeps env (typeOf id) :=
  typeOf_indifferent
    ⟨fun _ => trivial, fun _ _ _ => trivial, fun _ _ _ => rfl, registerFunction_still⟩ id

/-- A law about what finding types leaves alone is kept by what happens within a block, if it is by
what adds statements. -/
theorem straight_ofStill {L : Law} (h : L.Unmoved)
    (add : ∀ {env s s' st}, L.inv env s → L.Allows st → L.rel st.blocks s s' →
      Meets (addStatement st) env s' L.ends fun _ s'' => L.rel [] s s'') : L.Straight :=
  h.tabular.straight (fun _ f => h.keeps (registerFunction_still f))
    (fun _ f => h.keeps (useFunction_still f)) add

/-- A law about what finding types leaves alone is kept by what happens at single nodes, if it is
by what binds values and adds statements. -/
theorem closed_ofStill {L : Law} (h : L.Unmoved)
    (bind : ∀ env id n name, env.plan.node id = .ok n → n.isSpecial = false →
      L.Keeps env (bindValue id name))
    (add : ∀ {env s s' st}, L.inv env s → L.Allows st → L.rel st.blocks s s' →
      Meets (addStatement st) env s' L.ends fun _ s'' => L.rel [] s s'')
    (inBlock : ∀ {env step}, L.Keeps env step → L.Leaves env (inBlock step)) : L.Closed :=
  h.tabular.closed (fun _ f => h.keeps (registerFunction_still f))
    (fun _ f => h.keeps (useFunction_still f)) bind add inBlock

/-! ### Varyings -/

/-- A varying is entered with the type that its source has, under a name that is claimed for it. -/
theorem meets_enterVarying {id source : NodeId} {name : Option String}
    {interpolation : Interpolation} {sampling : Option Sampling} {s : BuildState}
    {post : VaryingEntry → BuildState → Prop}
    (h : Meets (typeOf source) env s (fun _ => True) fun type s₁ =>
      Meets (claimVarying name) env s₁ (fun _ => True) fun emitted s₂ =>
        let v : VaryingEntry :=
          ⟨emitted, type, source, interpolationFor type interpolation, sampling, none⟩
        post v { s₂ with varyings := s₂.varyings.put id v }) :
    Meets (enterVarying id source name interpolation sampling) env s (fun _ => True) post := by
  unfold enterVarying
  rw [meets_bind, meets_stage]
  refine meets_check fun _ => ?_
  rw [meets_bind, meets_read]
  refine meets_check fun _ => ?_
  rw [meets_bind]
  refine h.imp fun type s₁ claimed => ?_
  refine meets_check fun _ => ?_
  rw [meets_bind]
  exact claimed

/-- The entry of a varying has the source that it was entered with. -/
theorem enterVarying_source (id source : NodeId) (name : Option String)
    (interpolation : Interpolation) (sampling : Option Sampling) :
    Returns (fun v => v.source = source) (enterVarying id source name interpolation sampling) := by
  refine .bind fun stage => .when fun _ => .bind fun env => .when fun _ => .bind fun type => ?_
  exact .when fun _ => .bind fun emitted => .bind fun _ => .pure rfl

theorem entering_ofTyping {p : Plan} {α : Type} {step : Build α} (h : Law.typing.Keeps env step) :
    (Law.enteringVarying p).Keeps env step := by
  refine h.weaken (fun _ _ => trivial) (fun s s' _ hr => ?_) fun _ _ => trivial
  have same : s'.varyings = s.varyings := congrArg Still.varyings hr
  exact ⟨by rw [hr, same]; rfl, same ▸ fun h => h⟩

/-- A varying stays one of the plan when it gets its location. -/
theorem locateVarying_entering {p : Plan} {id : NodeId} {v : VaryingEntry} {name : Option String}
    {interpolation : Interpolation} {sampling : Option Sampling}
    (hn : p.node id = .ok (.varying v.source name interpolation sampling)) :
    (Law.enteringVarying p).Keeps env (locateVarying id v) := by
  intro s _
  unfold locateVarying
  rw [meets_modify]
  split
  · exact Law.refl _ s
  · exact ⟨rfl, fun hs => hs.put hn⟩

/-- Entering a varying adds it to the varyings, with the source that its node refers to. -/
theorem registerVarying_still {p : Plan} {id source : NodeId} {name : Option String}
    {interpolation : Interpolation} {sampling : Option Sampling}
    (hn : p.node id = .ok (.varying source name interpolation sampling)) {s : BuildState}
    (hv : VaryingsFrom p s.varyings) :
    Meets (registerVarying id source name interpolation sampling) env s (fun _ => True)
      fun v s' => (Law.enteringVarying p).rel [] s s' ∧ v.source = source := by
  unfold registerVarying
  rw [meets_bind, meets_get]
  cases hg : s.varyings.get? id with
  | some v =>
    obtain ⟨_, _, _, hn'⟩ := hv id v hg
    cases hn.symm.trans hn'
    exact ⟨Law.refl _ s, rfl⟩
  | none =>
    have keeps : (Law.enteringVarying p).Keeps env
        (enterVarying id source name interpolation sampling) := by
      refine .bind .stage fun t => .when (fun _ => .fail rfl) fun _ => .read ?_
      refine .when (fun _ => .fail rfl) fun _ => ?_
      refine .bind (entering_ofTyping (typeOf_still source)) fun type => ?_
      refine .when (fun _ => .fail rfl) fun _ => .bind ?_ fun emitted => ?_
      · exact entering_ofTyping (typing_ofTables (claimVarying_tables name))
      · exact .bind (fun s _ => ⟨rfl, fun hs => hs.put hn⟩) fun _ => .pure _
    exact (keeps s trivial).and (enterVarying_source id source name interpolation sampling env s)

theorem isWritten_of_still {s s' : BuildState} (h : s'.still = s.still) (id : NodeId) :
    isWritten s' id = isWritten s id := by
  have same : s'.varyings = s.varyings := congrArg Still.varyings h
  unfold isWritten
  rw [same]

theorem unwriting_ofTyping {α : Type} {id : NodeId} {step : Build α}
    (h : Law.typing.Keeps env step) : (Law.unwriting id).Keeps env step :=
  h.weaken (fun _ _ => trivial) (fun _ _ _ => isWritten_of_still) fun _ _ => trivial

/-- Entering a varying writes none; its entry tells whether it is written. -/
theorem registerVarying_location (id source : NodeId) (name : Option String)
    (interpolation : Interpolation) (sampling : Option Sampling) (s : BuildState) :
    Meets (registerVarying id source name interpolation sampling) env s (fun _ => True)
      fun v s' => (∀ j, isWritten s' j = isWritten s j) ∧ v.location.isSome = isWritten s id := by
  unfold registerVarying
  rw [meets_bind, meets_get]
  cases hg : s.varyings.get? id with
  | some v =>
    refine ⟨fun _ => rfl, ?_⟩
    rw [isWritten, hg]
    rfl
  | none =>
    have fresh : isWritten s id = false := by
      rw [isWritten, hg]
      rfl
    have keeps : (Law.unwriting id).Keeps env
        (enterVarying id source name interpolation sampling) := by
      refine .bind .stage fun t => .when (fun _ => .fail rfl) fun _ => .read ?_
      refine .when (fun _ => .fail rfl) fun _ => ?_
      refine .bind (unwriting_ofTyping (typeOf_still source)) fun type => ?_
      refine .when (fun _ => .fail rfl) fun _ => ?_
      refine .bind (unwriting_ofTyping (typing_ofTables (claimVarying_tables name))) fun emitted => ?_
      refine .bind (fun s hs j => ?_) fun _ => .pure _
      unfold isWritten
      rw [OrderedMap.get?_put]
      split
      · next h => exact h ▸ hs.symm
      · rfl
    have unlocated : Returns (fun v => v.location = none)
        (enterVarying id source name interpolation sampling) := by
      refine .bind fun stage => .when fun _ => .bind fun env => .when fun _ => .bind fun type => ?_
      exact .when fun _ => .bind fun emitted => .bind fun _ => .pure rfl
    refine ((keeps s fresh).and (unlocated env s)).imp fun v s' hr => ⟨hr.1, ?_⟩
    rw [hr.2, fresh]
    rfl

end Build

end ShaderGraph
