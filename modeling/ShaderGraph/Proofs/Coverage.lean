import ShaderGraph.Proofs.Generation

/-!
# What analysis counts and generation visits

A reference to a node is counted in the scope and the stage in which analysis meets it. From most
nodes analysis goes on in the same scope, and `Plan.Draws` is what it meets there. When it ends,
all that a counted node draws is counted as well (`analyzeIn_coverage`), also where analysis met
the node before and did not walk on. What a context value stands for and what is inside a cache
node with a scope of its own depend on more than the key of the node; they are not drawn.

Generation logs a visit for every answer to the question for the code of a node. From most nodes
it goes on to what they draw, so it visits what analysis has counted. A context value and a cache
node with a scope of its own lead to other keys as well (`Visit.Jumps`). Generation stays within
what was counted as long as these keys were counted (`BuildState.Traced`).

Generation asks for the code of counted nodes only, except below the visits that lead to keys which
analysis did not count: `usage_of_visits_iff` says that all visits of a run were counted exactly
when all that context values stand for and all that is in cache nodes with a scope of its own were.
-/

namespace ShaderGraph

/-! ## What analysis covers -/

/-- The nodes that are met below a node in the scope of the node, whatever the contexts. -/
def NodeOf.follows {ρ μ : Type} : NodeOf ρ μ → List ρ
  | context inner _ => [inner]
  | contextValue .. | cache _ false => []
  | n => n.children

/-- The stage in which the nodes below a node are met. -/
def NodeOf.stageBelow {ρ μ : Type} (stage : Option Stage) : NodeOf ρ μ → Option Stage
  | varying .. => some .vertex
  | _ => stage

theorem NodeOf.follows_of_shifts {ρ μ : Type} {n : NodeOf ρ μ} (h : n.shifts = false) :
    n.follows = n.children := by
  cases n <;> first | rfl | cases h

theorem NodeOf.stageBelow_of_shifts {ρ μ : Type} {n : NodeOf ρ μ} (h : n.shifts = false)
    (stage : Option Stage) : n.stageBelow stage = stage := by
  cases n <;> first | rfl | cases h

/-- What is met at `k` in a scope leads to `k'` in the same scope. -/
def Plan.Draws (p : Plan) (k k' : CacheKey) : Prop :=
  ∃ n, p.node k.node = .ok n ∧ k'.scope = k.scope ∧ k'.stage = n.stageBelow k.stage ∧
    ∃ c ∈ n.follows, p.resolve c = .ok k'.node

/-- Analysis between two states: what it counts anew draws counted keys only. -/
structure BuildState.Explores (p : Plan) (s s' : BuildState) : Prop where
  advances : s.Advances p s'
  quiet : s.Quiet s'
  counted : ∀ k, s.cache.Counted k → s'.cache.Counted k
  drawn : ∀ k, s'.cache.Counted k → s.cache.Counted k ∨ ∀ k', p.Draws k k' → s'.cache.Counted k'

namespace BuildState.Explores

variable {p : Plan} {s s' s'' : BuildState}

/-- A change of the state that counts nothing. -/
theorem of_counted (ha : s.Advances p s') (hq : s.Quiet s')
    (hc : ∀ k, s'.cache.Counted k ↔ s.cache.Counted k) : s.Explores p s' :=
  ⟨ha, hq, fun k => (hc k).2, fun k hk => .inl ((hc k).1 hk)⟩

theorem refl (s : BuildState) : s.Explores p s := of_counted (.refl s) (.refl s) fun _ => Iff.rfl

theorem trans (h : s.Explores p s') (h' : s'.Explores p s'') : s.Explores p s'' where
  advances := h.advances.trans h'.advances
  quiet := h.quiet.trans h'.quiet
  counted k hk := h'.counted k (h.counted k hk)
  drawn k hk := by
    rcases h'.drawn k hk with hk | hk
    · exact (h.drawn k hk).imp_right fun hd k' hk' => h'.counted k' (hd k' hk')
    · exact .inr hk

theorem of_entering (h : (Law.enteringVarying p).rel [] s s') : s.Explores p s' := by
  have same : s'.cache = s.cache := congrArg Still.cache h.1
  exact of_counted (.of_entering h) (.of_entering h) fun k => by rw [same]

/-- A reference to a node that draws counted keys only. -/
theorem counting {env : Env} {id : NodeId} (h : (s.counting env id).Explores p s')
    (hd : s.cache.Counted (Build.keyAt env s id) ∨
      ∀ k', p.Draws (Build.keyAt env s id) k' → s'.cache.Counted k') : s.Explores p s' where
  advances := by
    have first : s.Advances p (s.counting env id) := .of_eq rfl rfl rfl
    exact first.trans h.advances
  quiet := by
    have first : s.Quiet (s.counting env id) :=
      ⟨rfl, fun _ => rfl, fun _ => rfl, fun _ => NodeCache.bound?_count⟩
    exact first.trans h.quiet
  counted k hk := h.counted k (Build.counted_counting.2 (.inr hk))
  drawn k hk := by
    rcases h.drawn k hk with hk | hk
    · rcases Build.counted_counting.1 hk with rfl | hk
      · exact hd
      · exact .inl hk
    · exact .inr hk

end BuildState.Explores

/-- What analysis keeps to in a scope whose records are kept in `o`. -/
def Law.coverage (p : Plan) (o : ScopeId) : Law where
  inv := Placed p o
  rel _ := BuildState.Explores p
  ends _ := True
  refl := .refl
  trans := .trans
  mono hi hr := hi.mono hr.advances
  loops := @Placed.loops p o
  ordinary _ := trivial
  located _ := trivial

namespace Build

open Law

variable {p : Plan} {o : ScopeId} {env : Env} {id : NodeId} {n : Node}
  {analyze : NodeId → Build Unit}

theorem coverage_unmoved : (Law.coverage p o).Unmoved where
  ends _ := trivial
  rel {_ s s'} _ h := by
    have same : s'.cache = s.cache := congrArg Still.cache h
    exact .of_counted (.of_still h) (.of_still h) fun k => by rw [same]

/-- The nodes that are built in the place of `id` are counted. -/
def Covers (p : Plan) (o : ScopeId) (stage : Option Stage) (id : NodeId) (s : BuildState) : Prop :=
  ∀ m, p.resolve id = .ok m → s.cache.Counted ⟨o, m, stage⟩

/-- Analysis below a node covers what the node draws. -/
theorem analyzeNode_coverage (hn : p.node id = .ok n)
    (h : ∀ env' o' c, (Law.coverage p o').Secures env' (analyze c)
      (Covers p o' (some env'.stage) c)) :
    (Law.coverage p o).Secures env (analyzeNode analyze id n) fun s =>
      ∀ c ∈ n.follows, Covers p o (n.stageBelow (some env.stage)) c s := by
  intro s hs
  by_cases hshift : n.shifts
  · cases n with
    | varying source name interpolation sampling =>
      unfold analyzeNode
      rw [meets_bind, meets_discard]
      refine (registerVarying_still hn hs.regular.varyings).mono (fun _ h => h) fun v s' hr => ?_
      have grown : s.Explores p s' := .of_entering hr.1
      rw [meets_inStage]
      refine (h _ o source s' ((hs.mono grown.advances).within .vertex)).imp fun _ s'' hq => ?_
      refine ⟨grown.trans hq.1, fun c hc => ?_⟩
      cases List.mem_singleton.1 hc
      rw [stage_within] at hq
      exact hq.2
    | cache inner shares =>
      unfold analyzeNode
      rw [meets_bind, meets_cacheScope, meets_inScope]
      obtain ⟨advances, placed⟩ := hs.cacheScope hn rfl
      have grown : s.Explores p { s with cache := (s.cache.scopeFor env.scope id shares).2 } :=
        .of_counted advances .scopeFor fun k =>
          NodeCache.counted_of_records NodeCache.records_scopeFor
      refine (h _ _ inner _ placed).imp fun _ s' hq => ⟨grown.trans hq.1, fun c hc => ?_⟩
      cases shares
      · cases hc
      · cases List.mem_singleton.1 hc
        exact hq.2
    | context inner values =>
      show Meets (inContext id values (analyze inner)) env s _ _
      rw [meets_inContext]
      have grown : s.Explores p
          { s with frames := (s.frames.extend (Frame.current env.frames) id).2 } :=
        .of_counted (.frames _) (.frames _) fun _ => Iff.rfl
      refine (h _ o inner _ ((hs.mono grown.advances).inside _ values)).imp fun _ s' hq => ?_
      refine ⟨grown.trans hq.1, fun c hc => ?_⟩
      cases List.mem_singleton.1 hc
      exact hq.2
    | contextValue key fallback =>
      show Meets (withContextValue key fallback analyze) env s _ _
      rw [meets_withContextValue]
      split
      -- what a context value stands for is not drawn: there is nothing to cover
      · next c outer _ =>
        exact (h _ o c s (hs.frames outer)).imp fun _ s' hq => ⟨hq.1, fun c hc => nomatch hc⟩
      · next c _ => exact (h env o c s hs).imp fun _ s' hq => ⟨hq.1, fun c hc => nomatch hc⟩
      · trivial
    | _ => cases hshift
  · have hshift : n.shifts = false := by simpa using hshift
    rw [NodeOf.follows_of_shifts hshift, NodeOf.stageBelow_of_shifts hshift]
    refine Secures.analyzeNode coverage_unmoved.tabular
      (fun f _ _ => coverage_unmoved.keeps (registerFunction_still f)) ?_ hshift
      (fun c _ => h env o c) s hs
    exact fun c s s' hr hc m hm => hr.counted _ (hc m hm)

/-- Analysis covers what it meets, and what is drawn by that. -/
theorem analyzeIn_coverage (fuel : Nat) :
    (Law.coverage p o).Secures env (analyzeIn fuel id) (Covers p o (some env.stage) id) := by
  induction fuel generalizing o env id with
  | zero => exact fun _ _ => trivial
  | succ fuel ih =>
    intro s hs
    obtain rfl := hs.plan
    refine meets_analyzeIn (L := Law.coverage _ o) (fun _ _ _ => trivial) ?_ ?_
    -- again: the key was counted, so what it draws is no concern of this walk
    · intro m hm _ hc
      refine ⟨.counting (.refl _) (.inl hc), fun m' hm' => ?_⟩
      cases hm.symm.trans hm'
      exact counted_counting.2 (.inl hs.keyAt.symm)
    -- for the first time: the walk below covers all that the key draws
    · intro m n hm _ _ hn
      let deeper : Env := { env with path := m :: env.path }
      have walk : (Law.coverage env.plan o).Secures deeper (analyzeNode (analyzeIn fuel) m n)
          fun s => ∀ c ∈ n.follows, Covers env.plan o (n.stageBelow (some env.stage)) c s :=
        analyzeNode_coverage hn fun env' o' c => ih
      have counted : s.Advances env.plan (s.counting env m) := .of_eq rfl rfl rfl
      have placed : Placed env.plan o deeper (s.counting env m) :=
        (hs.mono counted).of_scope rfl rfl
      refine (walk _ placed).imp fun _ s' hq => ⟨.counting hq.1 (.inr ?_), fun m' hm' => ?_⟩
      · rw [hs.keyAt]
        rintro ⟨scope, node, stage⟩ ⟨n', hn', hscope, hstage, c, hc, hr⟩
        cases hn.symm.trans hn'
        cases hscope
        cases hstage
        exact hq.2 c hc node hr
      · cases hm.symm.trans hm'
        exact hq.1.counted _ (counted_counting.2 (.inl hs.keyAt.symm))

end Build

/-! ## What generation visits -/

/-- Whether a node leads to keys that depend on more than its own. -/
def NodeOf.jumps {ρ μ : Type} : NodeOf ρ μ → Bool
  | contextValue .. => true
  | cache _ shares => !shares
  | _ => false

/-- The node that a context value stands for. -/
def Visit.standsFor (v : Visit) (key : String) (fallback : Option NodeId) : Option NodeId :=
  ((Frame.lookup? key v.frames).map Prod.fst).or fallback

/-- A visit leads to a key that depends on more than its own. -/
inductive Visit.Jumps (p : Plan) (c : NodeCache) (v : Visit) : CacheKey → Prop
  | value {key : String} {fallback : Option NodeId} {id m : NodeId} :
      p.node v.key.node = .ok (.contextValue key fallback) → v.standsFor key fallback = some id →
      p.resolve id = .ok m → Jumps p c v ⟨v.key.scope, m, v.key.stage⟩
  | content {inner m : NodeId} {d : ScopeId} :
      p.node v.key.node = .ok (.cache inner false) → c.derived.get? (v.scope, v.key.node) = some d →
      p.resolve inner = .ok m → Jumps p c v ⟨d, m, v.key.stage⟩

namespace Visit

variable {p : Plan} {c c' : NodeCache} {v : Visit} {k : CacheKey} {n : Node}

theorem Jumps.mono (h : v.Jumps p c k) (hg : c.Grows c') : v.Jumps p c' k := by
  cases h with
  | value hn hs hm => exact .value hn hs hm
  | content hn hd hm => exact .content hn (hg.derived _ _ hd) hm

theorem Jumps.node_jumps (h : v.Jumps p c k) (hn : p.node v.key.node = .ok n) : n.jumps = true := by
  cases h with
  | value hn' => cases hn.symm.trans hn'; rfl
  | content hn' => cases hn.symm.trans hn'; rfl

/-- A visit at a context value leads to what it stands for. -/
theorem jumps_value {key : String} {fallback : Option NodeId} {id : NodeId}
    (hn : p.node v.key.node = .ok (.contextValue key fallback))
    (hs : v.standsFor key fallback = some id) : v.Jumps p c k ↔
      ∃ m, p.resolve id = .ok m ∧ k = ⟨v.key.scope, m, v.key.stage⟩ := by
  constructor
  · intro h
    cases h with
    | value hn' hs' hm =>
      cases hn.symm.trans hn'
      cases hs.symm.trans hs'
      exact ⟨_, hm, rfl⟩
    | content hn' => cases hn.symm.trans hn'
  · rintro ⟨m, hm, rfl⟩
    exact .value hn hs hm

/-- A visit at a cache node leads to what is inside. -/
theorem jumps_content {inner : NodeId} {d : ScopeId}
    (hn : p.node v.key.node = .ok (.cache inner false))
    (hd : c.derived.get? (v.scope, v.key.node) = some d) : v.Jumps p c k ↔
      ∃ m, p.resolve inner = .ok m ∧ k = ⟨d, m, v.key.stage⟩ := by
  constructor
  · intro h
    cases h with
    | value hn' => cases hn.symm.trans hn'
    | content hn' hd' hm =>
      cases hn.symm.trans hn'
      cases hd.symm.trans hd'
      exact ⟨_, hm, rfl⟩
  · rintro ⟨m, hm, rfl⟩
    exact .content hn hd hm

/-- Where a visit leads to does not depend on the code. -/
theorem Jumps.withCode (h : v.Jumps p c k) (code : Option Expr) :
    { v with code := code }.Jumps p c k := by
  cases h with
  | value hn hs hm => exact .value hn hs hm
  | content hn hd hm => exact .content hn hd hm

/-- A visit is logged where its record is kept, after the visits that it leads to. -/
def Sound (p : Plan) (s : BuildState) (v : Visit) : Prop :=
  ∀ c, s.cache.Grows c → c.owner v.scope = v.key.scope ∧
    ∀ k, v.Jumps p c k → ∃ w ∈ s.visits, w.key = k

end Visit

/-- The visits between two states: those of keys in `U` as far as they lead to keys in `U`,
unless the first of them was `lost`. -/
structure BuildState.Traced (p : Plan) (U : CacheKey → Prop) (lost : Prop) (s s' : BuildState) :
    Prop where
  advances : s.Advances p s'
  counted : ∀ k, s'.cache.Counted k ↔ s.cache.Counted k
  visits : ∃ new, s'.visits = new ++ s.visits ∧ (∀ v ∈ new, v.Sound p s') ∧
    (¬lost → (∀ v ∈ new, ∀ k, v.Jumps p s'.cache k → U k) → ∀ v ∈ new, U v.key)

namespace BuildState.Traced

variable {p : Plan} {U : CacheKey → Prop} {lost lost' : Prop} {s s' s'' : BuildState}

theorem of_visits (ha : s.Advances p s') (hc : ∀ k, s'.cache.Counted k ↔ s.cache.Counted k)
    (hv : s'.visits = s.visits) : s.Traced p U lost s' :=
  ⟨ha, hc, [], hv, fun _ h => (nomatch h), fun _ _ _ h => nomatch h⟩

theorem refl (s : BuildState) : s.Traced p U lost s :=
  of_visits (.refl s) (fun _ => Iff.rfl) rfl

theorem trans (h : s.Traced p U lost s') (h' : s'.Traced p U lost s'') :
    s.Traced p U lost s'' := by
  obtain ⟨new, hv, hs, hu⟩ := h.visits
  obtain ⟨new', hv', hs', hu'⟩ := h'.visits
  refine ⟨h.advances.trans h'.advances, fun k => (h'.counted k).trans (h.counted k), new' ++ new,
    ?_, fun v hmem => ?_, fun hl hj v hmem => ?_⟩
  · rw [hv', hv, List.append_assoc]
  · rcases List.mem_append.1 hmem with hmem | hmem
    · exact hs' v hmem
    · intro c hg
      obtain ⟨howner, hjumps⟩ := hs v hmem c (h'.advances.grows.trans hg)
      refine ⟨howner, fun k hk => ?_⟩
      obtain ⟨w, hw, hkey⟩ := hjumps k hk
      exact ⟨w, hv' ▸ List.mem_append_right _ hw, hkey⟩
  · rcases List.mem_append.1 hmem with hmem | hmem
    · exact hu' hl (fun w hw => hj w (List.mem_append_left _ hw)) v hmem
    · refine hu hl (fun w hw k hk => ?_) v hmem
      exact hj w (List.mem_append_right _ hw) k (hk.mono h'.advances.grows)

theorem of_still (h : s'.still = s.still) : s.Traced p U lost s' := by
  have same : s'.cache = s.cache := congrArg Still.cache h
  exact of_visits (.of_still h) (fun k => by rw [same]) (congrArg Still.visits h)

theorem of_entering (h : (Law.enteringVarying p).rel [] s s') : s.Traced p U lost s' := by
  have same : s'.cache = s.cache := congrArg Still.cache h.1
  exact of_visits (.of_entering h) (fun k => by rw [same]) (congrArg Still.visits h.1)

end BuildState.Traced

/-- What generation keeps to in a scope whose records are kept in `o`. -/
def Law.traced (p : Plan) (U : CacheKey → Prop) (lost : Prop) (o : ScopeId) : Law where
  inv := Placed p o
  rel _ := BuildState.Traced p U lost
  ends _ := True
  refl := .refl
  trans := .trans
  mono hi hr := hi.mono hr.advances
  loops := @Placed.loops p o
  ordinary _ := trivial
  located _ := trivial

namespace Build

open Law

variable {p : Plan} {U : CacheKey → Prop} {lost : Prop} {o : ScopeId} {env : Env} {id : NodeId}
  {n : Node} {g : Generator}

theorem traced_unmoved : (Law.traced p U lost o).Unmoved where
  ends _ := trivial
  rel _ h := .of_still h

theorem traced_ofEntering {α : Type} {step : Build α} (h : (Law.enteringVarying p).Keeps env step) :
    (Law.traced p U lost o).Keeps env step :=
  h.weaken (fun _ _ => trivial) (fun _ _ _ hr => .of_entering hr) fun _ _ => trivial

theorem traced_blockless : (Law.traced p U lost o).Blockless where
  stages _ _ _ := .of_visits (.of_eq rfl rfl rfl) (fun _ => Iff.rfl) rfl
  any h := h

theorem bindName_traced (name : String) (frame : Option FrameId) :
    (Law.traced p U lost o).Keeps env (bindName id name frame) :=
  fun _ _ => .of_visits (.of_eq rfl rfl rfl) (fun _ => NodeCache.counted_bind) rfl

theorem traced_closed : (Law.traced p U lost o).Closed :=
  closed_ofStill traced_unmoved (fun _ _ _ _ _ _ => .read (bindName_traced _ _))
    (fun _ _ => traced_blockless.add) traced_blockless.inBlock

theorem declareVariable_traced {value : NodeId} {readOnly : Bool} {name : String}
    {type : ValueType} {init : Expr} :
    (Law.traced p U lost o).Keeps env (declareVariable id value readOnly name type init) := by
  refine .bind (.mutability value readOnly) fun m => .bind (.recordKey id) fun key => ?_
  refine .bind (fun s _ => ?_) fun _ => bindName_traced name none
  exact traced_blockless.stages [] s _

/-- The nodes that are built in the place of `id` are in `U`. -/
def Within (p : Plan) (U : CacheKey → Prop) (o : ScopeId) (stage : Stage) (id : NodeId) : Prop :=
  ∀ m, p.resolve id = .ok m → U ⟨o, m, some stage⟩

/-- The nodes that are built in the place of `id` were visited. -/
def Visited (p : Plan) (o : ScopeId) (stage : Stage) (id : NodeId) (s : BuildState) : Prop :=
  ∀ m, p.resolve id = .ok m → ∃ w ∈ s.visits, w.key = ⟨o, m, some stage⟩

/-- The steps of a generator keep to what was counted. -/
structure Traces (p : Plan) (U : CacheKey → Prop) (g : Generator) : Prop where
  emit : ∀ {lost o env id}, (¬lost → Within p U o env.stage id) →
    (Law.traced p U lost o).Secures env (g.emit id) (Visited p o env.stage id)
  place : ∀ {lost o env id}, (¬lost → Within p U o env.stage id) →
    (Law.traced p U lost o).Keeps env (g.place id)

theorem Within.own {m : NodeId} {stage : Stage} (h : Within p U o stage id)
    (hm : p.resolve id = .ok m) : Within p U o stage m := by
  intro m' hm'
  rw [Plan.resolve_of_resolve hm] at hm'
  cases hm'
  exact h m hm

theorem Traces.serves (hg : Traces p U g) (h : ¬lost → Within p U o env.stage id) :
    (Law.traced p U lost o).Serves env g id := by
  refine ⟨fun l m hm s hi => ?_, fun l => .ofKeeps (hg.place h) fun _ => trivial, fun l m _ => ?_⟩
  · have own : ¬lost → Within p U o env.stage m := by
      intro hl
      rcases hm with rfl | hm
      · exact h hl
      · exact (h hl).own (hi.plan ▸ hm)
    have walk : (Law.traced p U lost o).Secures { env with loops := l } (g.emit m)
        (Visited p o env.stage m) := hg.emit own
    exact (walk s hi).imp fun _ _ hq => hq.1
  · exact traced_unmoved.keeps (typeOf_still m)

theorem within_of_draws (hU : ∀ k k', U k → p.Draws k k' → U k') (hn : p.node id = .ok n)
    {stage t : Stage} (ht : n.stageBelow (some stage) = some t) (h : U ⟨o, id, some stage⟩)
    {c : NodeId} (hc : c ∈ n.follows) : Within p U o t c :=
  fun m hm => hU _ ⟨o, m, some t⟩ h ⟨n, hn, rfl, ht.symm, c, hc, hm⟩

theorem inStage_traced {step : Build Unit} {t : Stage}
    (h : (Law.traced p U lost o).Keeps (within env t) step) :
    (Law.traced p U lost o).Keeps env (inStage t step) :=
  h.inStage (fun _ hs => hs.within t) (fun _ _ hr => hr) fun _ he => he

/-- What the code of a node comes to: the visits below the node, those that the visit at the node
leads to among them. They are lost only if it leads to a key that is not in `U`. -/
def Comes (p : Plan) (U : CacheKey → Prop) (lost : Prop) (v : Visit) (s s' : BuildState) : Prop :=
  ∃ lost', s.Traced p U lost' s' ∧
    (∀ c, s'.cache.Grows c → ∀ k, v.Jumps p c k → ∃ w ∈ s'.visits, w.key = k) ∧
    (lost' → lost ∨ ∃ k, v.Jumps p s'.cache k ∧ ¬U k)

theorem Comes.plain {v : Visit} {s s' : BuildState} (hn : p.node v.key.node = .ok n)
    (hj : n.jumps = false) (h : s.Traced p U lost s') : Comes p U lost v s s' := by
  refine ⟨lost, h, fun c _ k hk => ?_, .inl⟩
  rw [hk.node_jumps hn] at hj
  cases hj

/-- A visit that leads to one node, in a scope whose records are kept in `o'`. -/
theorem Comes.single {v : Visit} {s s' s'' : BuildState} {o' : ScopeId} {stage : Stage}
    {c : NodeId} (hj : ∀ d, s'.cache.Grows d → ∀ k, v.Jumps p d k ↔
      ∃ m, p.resolve c = .ok m ∧ k = ⟨o', m, some stage⟩)
    (hr : s.Traced p U (lost ∨ ¬Within p U o' stage c) s')
    (h : s'.Traced p U (lost ∨ ¬Within p U o' stage c) s'') (hv : Visited p o' stage c s'') :
    Comes p U lost v s s'' := by
  refine ⟨_, hr.trans h, fun d hg k hk => ?_, ?_⟩
  · obtain ⟨m, hm, rfl⟩ := (hj d (h.advances.grows.trans hg) k).1 hk
    exact hv m hm
  · rintro (hl | hw)
    · exact .inl hl
    · obtain ⟨m, hw⟩ := not_forall.1 hw
      obtain ⟨hm, hu⟩ := Classical.not_imp.1 hw
      exact .inr ⟨_, (hj _ h.advances.grows _).2 ⟨m, hm, rfl⟩, hu⟩

theorem standsFor_visitAt (env : Env) (s : BuildState) (id : NodeId) (code : Option Expr)
    (key : String) (fallback : Option NodeId) :
    (visitAt env s id code).standsFor key fallback =
      ((Frame.lookup? key env.frames).map Prod.fst).or fallback := rfl

/-- A node that was not counted is visited all the same. -/
theorem Traces.stray (hg : Traces p U g) {c : NodeId} :
    (Law.traced p U (lost ∨ ¬Within p U o env.stage c) o).Secures env (g.emit c)
      (Visited p o env.stage c) := by
  refine hg.emit fun hl => ?_
  by_contra hw
  exact hl (.inr hw)

/-- A context value leads to the node that it stands for. -/
theorem withContextValue_traced (hg : Traces p U g) {key : String} {fallback : Option NodeId}
    (hn : p.node id = .ok (.contextValue key fallback)) {s : BuildState}
    (hs : Placed p o env s) :
    Meets (withContextValue key fallback g.emit) env s (fun _ => True) fun _ s' =>
      Comes p U lost (visitAt env s id none) s s' := by
  have leads : ∀ {c}, (visitAt env s id none).standsFor key fallback = some c →
      ∀ d, s.cache.Grows d → ∀ k, (visitAt env s id none).Jumps p d k ↔
        ∃ m, p.resolve c = .ok m ∧ k = ⟨o, m, some env.stage⟩ := by
    intro c hc d _ k
    rw [Visit.jumps_value hn hc, ← hs.owner]
    rfl
  have go : ∀ {c} fs, (visitAt env s id none).standsFor key fallback = some c →
      Meets (g.emit c) { env with frames := fs } s (fun _ => True) fun _ s' =>
        Comes p U lost (visitAt env s id none) s s' := by
    intro c fs hc
    have walk : (Law.traced p U (lost ∨ ¬Within p U o env.stage c) o).Secures
        { env with frames := fs } (g.emit c) (Visited p o env.stage c) := hg.stray
    exact (walk s (hs.frames fs)).imp fun _ s' hq => .single (leads hc) (.refl s) hq.1 hq.2
  rw [meets_withContextValue]
  split
  · next c outer hf => exact go outer (by rw [standsFor_visitAt, hf]; rfl)
  · next c hf => exact go env.frames (by rw [standsFor_visitAt, hf]; rfl)
  · trivial

theorem traced_scopeFor {s : BuildState} {scope : ScopeId} {shares : Bool}
    (ha : s.Advances p { s with cache := (s.cache.scopeFor scope id shares).2 }) :
    s.Traced p U lost { s with cache := (s.cache.scopeFor scope id shares).2 } :=
  .of_visits ha (fun _ => NodeCache.counted_of_records NodeCache.records_scopeFor) rfl

/-- A cache node with a scope of its own leads to what is inside. -/
theorem isolated_traced (hg : Traces p U g) {inner : NodeId}
    (hn : p.node id = .ok (.cache inner false)) {s : BuildState} (hs : Placed p o env s) :
    Meets (generateNode g id (.cache inner false)) env s (fun _ => True) fun _ s' =>
      Comes p U lost (visitAt env s id none) s s' := by
  obtain ⟨advances, placed⟩ := hs.cacheScope hn rfl
  unfold generateNode
  rw [meets_bind, meets_cacheScope, meets_inScope]
  let d := s.cache.scopeFor env.scope id false
  have leads : ∀ c, d.2.Grows c → ∀ k, (visitAt env s id none).Jumps p c k ↔
      ∃ m, p.resolve inner = .ok m ∧ k = ⟨d.1, m, some env.stage⟩ := by
    intro c hgrows k
    exact Visit.jumps_content hn (hgrows.derived _ _ NodeCache.derived_scopeFor)
  have walk : (Law.traced p U (lost ∨ ¬Within p U d.1 env.stage inner) d.1).Secures
      { env with scope := d.1 } (g.emit inner) (Visited p d.1 env.stage inner) := hg.stray
  exact (walk _ placed).imp fun _ s' hq => .single leads (traced_scopeFor advances) hq.1 hq.2

/-- The code of a node comes to what the visits below it are. -/
theorem generateNode_traced (hU : ∀ k k', U k → p.Draws k k' → U k') (hg : Traces p U g)
    (hn : p.node id = .ok n) (h : ¬lost → U ⟨o, id, some env.stage⟩) {s : BuildState}
    (hs : Placed p o env s) :
    Meets (generateNode g id n) env s (fun _ => True) fun _ s' =>
      Comes p U lost (visitAt env s id none) s s' := by
  have below : ∀ env' : Env, n.stageBelow (some env.stage) = some env'.stage →
      ∀ c ∈ n.follows, (Law.traced p U lost o).Serves env' g c :=
    fun _ ht c hc => hg.serves fun hl => within_of_draws hU hn ht (h hl) hc
  have plain : n.jumps = false → (Law.traced p U lost o).Keeps env (generateNode g id n) →
      Meets (generateNode g id n) env s (fun _ => True) fun _ s' =>
        Comes p U lost (visitAt env s id none) s s' :=
    fun hj hk => (hk s hs).imp fun _ s' hr => .plain hn hj hr
  by_cases hspecial : n.isSpecial
  · cases n with
    | varying source name interpolation sampling =>
      refine plain rfl (.map _ ?_)
      have serves := below (within env .vertex) (by rw [stage_within]; rfl) source (.head _)
      have assign := Keeps.assignVarying (fun _ _ => .add traced_closed.toStraight (.assign trivial) rfl)
        (traced_unmoved.tabular.mark id) serves
      refine .buildVarying assign (traced_unmoved.tabular.mark id) inStage_traced
        (fun _ _ h => h) (fun _ _ _ _ h => h) (fun s hs => ?_) fun v s hs hv => ?_
      · refine (registerVarying_still hn hs.regular.varyings).imp fun v s' hr => ?_
        exact ⟨.of_entering hr.1, hr.2⟩
      · exact traced_ofEntering (locateVarying_entering (hv ▸ hn)) s hs
    | var value name readOnly =>
      refine plain rfl (.map _ ?_)
      refine .buildVariable traced_closed.toStraight (traced_unmoved.keeps (typeOf_still id))
        (below env rfl value (.head _)) fun name type init _ => declareVariable_traced
    | context inner values =>
      refine plain rfl fun s hs => ?_
      show Meets (inContext id values (g.emit inner)) env s _ _
      rw [meets_inContext]
      have grown : s.Traced p U lost
          { s with frames := (s.frames.extend (Frame.current env.frames) id).2 } :=
        .of_visits (.frames _) (fun _ => Iff.rfl) rfl
      let frame := (s.frames.extend (Frame.current env.frames) id).1
      have serves := below (inside env frame values) rfl inner (.head _)
      refine (serves.emit' _ ((hs.mono grown.advances).inside _ values)).imp ?_
      exact fun _ _ hr => grown.trans hr
    | contextValue key fallback => exact withContextValue_traced hg hn hs
    | cache inner shares =>
      cases shares with
      | true =>
        refine plain rfl fun s hs => ?_
        obtain ⟨advances, placed⟩ := hs.cacheScope hn rfl
        have serves := below { env with scope := (s.cache.scopeFor env.scope id true).1 } rfl inner
          (.head _)
        unfold generateNode
        rw [meets_bind, meets_cacheScope, meets_inScope]
        refine (serves.emit' _ placed).imp fun _ s' hr => ?_
        exact (traced_scopeFor advances).trans hr
      | false => exact isolated_traced hg hn hs
    | _ => cases hspecial
  · have hspecial : n.isSpecial = false := by simpa using hspecial
    have hshift : n.shifts = false := by
      cases n <;> first | rfl | cases hspecial
    have hjump : n.jumps = false := by
      cases n <;> first | rfl | cases hspecial
    refine plain hjump (fun s hs => ?_)
    obtain rfl := hs.plan
    refine Keeps.generateNode traced_closed hn hspecial (traced_unmoved.keeps (typeOf_still id))
      (fun c hc => below env (NodeOf.stageBelow_of_shifts hshift _) c ?_) s hs
    rw [NodeOf.follows_of_shifts hshift]
    exact hc

/-- The visit at a node is logged after those below. -/
theorem traced_recordVisit {s s' : BuildState} (hs : Placed p o env s)
    (hu : ¬lost → U ⟨o, id, some env.stage⟩) (h : Comes p U lost (visitAt env s id none) s s')
    (code : Option Expr) :
    s.Traced p U lost { s' with visits := visitAt env s id code :: s'.visits } := by
  obtain ⟨lost', ⟨advances, counted, new, hv, hsound, hnew⟩, hleads, hlost⟩ := h
  refine ⟨advances.trans (.of_eq rfl rfl rfl), counted, visitAt env s id code :: new, ?_, ?_, ?_⟩
  · exact congrArg (visitAt env s id code :: ·) hv
  · intro v hmem c hgrows
    rcases List.mem_cons.1 hmem with rfl | hmem
    · refine ⟨hs.regular.cache.owner_of_grows (advances.grows.trans hgrows) hs.has, fun k hk => ?_⟩
      obtain ⟨w, hw, hkey⟩ := hleads c hgrows k (hk.withCode none)
      exact ⟨w, .tail _ hw, hkey⟩
    · obtain ⟨howner, hjumps⟩ := hsound v hmem c hgrows
      refine ⟨howner, fun k hk => ?_⟩
      obtain ⟨w, hw, hkey⟩ := hjumps k hk
      exact ⟨w, .tail _ hw, hkey⟩
  -- visits below are lost only through a jump of this one to a key that is not in `U`
  · intro hl hall v hmem
    have found : ¬lost' := by
      intro hl'
      rcases hlost hl' with hl' | ⟨k, hk, hnot⟩
      · exact hl hl'
      · exact hnot (hall _ (.head _) k (hk.withCode code))
    rcases List.mem_cons.1 hmem with rfl | hmem
    · show U (keyAt env s id)
      rw [hs.keyAt]
      exact hu hl
    · exact hnew found (fun w hw => hall w (.tail _ hw)) v hmem

/-- Generation keeps to what was counted. -/
theorem generator_traced (hU : ∀ k k', U k → p.Draws k k' → U k') (fuel : Nat) :
    Traces p U (generator fuel) := by
  induction fuel with
  | zero => exact ⟨fun _ _ _ => trivial, fun _ _ _ => trivial⟩
  | succ fuel ih =>
    refine ⟨fun {lost o env id} h => ?_, fun {lost o env id} h => ?_⟩
    · intro s hs
      obtain rfl := hs.plan
      refine meets_emitNode (fun _ => trivial) fun m n hr hn => ?_
      have own : ¬lost → U ⟨o, m, some env.stage⟩ := fun hl => h hl m hr
      refine (generateNode_traced hU ih hn own hs).imp fun code s' hc => ?_
      refine ⟨traced_recordVisit hs own hc code, fun m' hm' => ?_⟩
      cases hr.symm.trans hm'
      exact ⟨_, .head _, hs.keyAt⟩
    · intro s hs
      obtain rfl := hs.plan
      refine Keeps.resolve (fun m hm => .located (.node fun n hn => ?_)) s hs
      have own : ¬lost → Within env.plan U o env.stage m := fun hl => (h hl).own hm
      refine .bind (traced_unmoved.keeps (typeOf_still m)) fun type => .bind ?_ fun e => .pure _
      -- the nodes that shift are no places
      by_cases hshift : n.shifts
      · cases n <;> first | exact .fail rfl | cases hshift
      · have hshift : n.shifts = false := by simpa using hshift
        refine .placeOf traced_closed.toPlain (ih.emit own).keeps fun c hc => ih.serves fun hl => ?_
        refine within_of_draws hU hn (NodeOf.stageBelow_of_shifts hshift _) (h hl m hm) ?_
        rw [NodeOf.follows_of_shifts hshift]
        exact hc

end Build

/-! ## Generation and what was counted -/

/-- What a visit leads to beyond its own key was counted: the node that a context value stands
for, and what is inside a cache node with a scope of its own. -/
def Visit.Awaited (p : Plan) (c : NodeCache) (v : Visit) : Prop :=
  (∀ key fallback id m, p.node v.key.node = .ok (.contextValue key fallback) →
    v.standsFor key fallback = some id → p.resolve id = .ok m →
    1 ≤ c.usage v.scope m v.key.stage) ∧
  ∀ inner d m, p.node v.key.node = .ok (.cache inner false) →
    c.derived.get? (v.scope, v.key.node) = some d → p.resolve inner = .ok m →
    1 ≤ c.usage d m v.key.stage

theorem Visit.awaited_iff {p : Plan} {c : NodeCache} {v : Visit} (hc : c.Regular p)
    (hv : c.owner v.scope = v.key.scope) :
    v.Awaited p c ↔ ∀ k, v.Jumps p c k → c.Counted k := by
  have value : ∀ m, c.key v.scope m v.key.stage = ⟨v.key.scope, m, v.key.stage⟩ := by
    intro m
    rw [NodeCache.key, hv]
  have content : ∀ {inner d m}, p.node v.key.node = .ok (.cache inner false) →
      c.derived.get? (v.scope, v.key.node) = some d →
      c.key d m v.key.stage = ⟨d, m, v.key.stage⟩ := by
    intro inner d m hn hd
    rw [NodeCache.key, (hc.owner_derived hd hn).2]
    rfl
  constructor
  · rintro ⟨hvalue, hcontent⟩ k hk
    cases hk with
    | value hn hs hm => exact value _ ▸ NodeCache.counted_key.2 (hvalue _ _ _ _ hn hs hm)
    | content hn hd hm =>
      exact content hn hd ▸ NodeCache.counted_key.2 (hcontent _ _ _ hn hd hm)
  · refine fun h => ⟨fun key fallback id m hn hs hm => ?_, fun inner d m hn hd hm => ?_⟩
    · exact NodeCache.counted_key.1 (value m ▸ h _ (.value hn hs hm))
    · exact NodeCache.counted_key.1 (content hn hd ▸ h _ (.content hn hd hm))

namespace Build

open Law

variable {p : Plan} {rs : List (Stage × NodeId)} {s s' : BuildState}

/-- Analysis of the roots counts them and all that is drawn by what it counts. -/
theorem analyze_covers (active : List Stage)
    (h : atRoots p active analyze rs (BuildState.start p) = .ok s) :
    s.Scoped p ∧ (BuildState.start p).Quiet s ∧ (∀ r ∈ rs, Covers p .root (some r.1) r.2 s) ∧
      ∀ k, s.cache.Counted k → ∀ k', p.Draws k k' → s.cache.Counted k' := by
  have start : ∀ r ∈ rs, (Law.coverage p .root).inv (Env.root p active r.1)
      (BuildState.start p) := fun r _ => .root (scoped_start p) active r.1
  have walk : ∀ r ∈ rs, (Law.coverage p .root).Secures (Env.root p active r.1) (analyze r.2)
      (Covers p .root (some r.1) r.2) := by
    intro r _ s hs
    unfold analyze
    rw [meets_bind, meets_read]
    exact analyzeIn_coverage _ s hs
  have all := Law.Secures.atRoots (L := Law.coverage p .root)
    (Q := fun r => Covers p .root (some r.1) r.2)
    (fun r s s' hr hc m hm => hr.counted _ (hc m hm)) start walk
  rw [h] at all
  obtain ⟨⟨advances, quiet, -, closed⟩, covers⟩ := all
  refine ⟨advances.regular (scoped_start p), quiet, covers, fun k hk => ?_⟩
  exact (closed k hk).resolve_left NodeCache.not_counted_empty

/-- Generation of the roots visits what was counted. -/
theorem generate_traced (active : List Stage) (hs : s.Scoped p)
    (hc : ∀ r ∈ rs, Covers p .root (some r.1) r.2 s)
    (hU : ∀ k, s.cache.Counted k → ∀ k', p.Draws k k' → s.cache.Counted k')
    (h : atRoots p active generateStage rs s = .ok s') :
    s.Traced p s.cache.Counted False s' := by
  have walk : ∀ r ∈ rs, (Law.traced p s.cache.Counted False .root).Keeps
      (Env.root p active r.1) (generateStage r.2) := by
    intro r hr
    have traces := generator_traced (fun k k' hk => hU k hk k')
      (Nat.pow 2 (p.graph.size + 2))
    have serves : (Law.traced p s.cache.Counted False .root).Serves (Env.root p active r.1)
        (generator (Nat.pow 2 (p.graph.size + 2))) r.2 := traces.serves fun _ => hc r hr
    exact .generateStage traced_unmoved.tabular.finish serves
  have start : ∀ r ∈ rs, (Law.traced p s.cache.Counted False .root).inv
      (Env.root p active r.1) s := fun r _ => .root hs active r.1
  have all := Law.Keeps.atRoots start walk
  rw [h] at all
  exact all

/-- The two halves of a run. -/
theorem of_run (h : run p rs = .ok s') : ∃ s,
    atRoots p (rs.map Prod.fst) analyze rs (BuildState.start p) = .ok s ∧
      atRoots p (rs.map Prod.fst) generateStage rs s = .ok s' := by
  unfold run at h
  dsimp only at h
  split at h
  · next s hs => exact ⟨s, hs, h⟩
  · cases h

/-- All visits of a run were counted exactly when all were that visits lead to beyond their own
keys. -/
theorem usage_of_visits_iff (h : run p rs = .ok s) :
    (∀ v ∈ s.visits, 1 ≤ s.cache.usage v.scope v.key.node v.key.stage) ↔
      ∀ v ∈ s.visits, v.Awaited p s.cache := by
  obtain ⟨s₀, hanalyze, hgenerate⟩ := of_run h
  obtain ⟨regular, quiet, covers, closed⟩ := analyze_covers _ hanalyze
  obtain ⟨advances, counted, new, hv, sound, within⟩ :=
    generate_traced _ regular covers closed hgenerate
  have visits : s.visits = new := by
    rw [hv, quiet.visits]
    exact List.append_nil new
  rw [visits]
  have owner : ∀ v ∈ new, s.cache.owner v.scope = v.key.scope :=
    fun v hmem => (sound v hmem s.cache (.refl _)).1
  have usage : ∀ v ∈ new, 1 ≤ s.cache.usage v.scope v.key.node v.key.stage ↔
      s.cache.Counted v.key := by
    intro v hmem
    rw [← NodeCache.counted_key, NodeCache.key, owner v hmem]
  have awaited : ∀ v ∈ new, v.Awaited p s.cache ↔
      ∀ k, v.Jumps p s.cache k → s.cache.Counted k :=
    fun v hmem => Visit.awaited_iff (advances.regular regular).cache (owner v hmem)
  constructor
  -- where a visit leads another visit is, so its count is one of a visit
  · intro hall v hmem
    refine (awaited v hmem).2 fun k hk => ?_
    obtain ⟨w, hw, rfl⟩ := (sound v hmem s.cache (.refl _)).2 k hk
    rw [visits] at hw
    exact (usage w hw).1 (hall w hw)
  -- nothing is lost when no visit leads to a key that was not counted
  · intro hall v hmem
    refine (usage v hmem).2 ((counted _).2 (within id (fun w hw k hk => ?_) v hmem))
    exact (counted k).1 ((awaited w hw).1 (hall w hw) k hk)

/-- A sum is lent to a context value whose content was counted under another context. -/
def lentTwice : Graph := .ofNodes
  [.contextValue "x" none, .const .float [1], .unary .neg ⟨1⟩, .operator .add ⟨2⟩ ⟨2⟩,
    .context ⟨0⟩ [("x", ⟨1⟩)], .context ⟨0⟩ [("x", ⟨3⟩)], .operator .add ⟨4⟩ ⟨5⟩]

theorem make_lentTwice :
    Plan.make lentTwice .standard [⟨6⟩] = .ok (.ofGraph lentTwice .standard) := by
  rfl

/-- Whether a run visits a node that was not counted. -/
def strays : Except Failure BuildState → Bool
  | .ok s => s.visits.any fun v => s.cache.usage v.scope v.key.node v.key.stage = 0
  | .error _ => false

theorem of_strays {r : Except Failure BuildState} (h : strays r = true) :
    ∃ s, r = .ok s ∧ ∃ v ∈ s.visits, s.cache.usage v.scope v.key.node v.key.stage = 0 := by
  unfold strays at h
  split at h
  · next s =>
    obtain ⟨v, hv, husage⟩ := List.any_eq_true.1 h
    exact ⟨s, rfl, v, hv, of_decide_eq_true husage⟩
  · cases h

theorem strays_lentTwice :
    strays (run (.ofGraph lentTwice .standard) [(.fragment, ⟨6⟩)]) = true := by
  decide +kernel

/-- The build of `lentTwice` succeeds and visits a node that was not counted. -/
theorem lentTwice_not_counted :
    (build lentTwice ⟨none, some ⟨6⟩, none⟩ .standard).isOk = true ∧
      ∃ p, Plan.make lentTwice .standard [⟨6⟩] = .ok p ∧
        ∃ s, run p [(.fragment, ⟨6⟩)] = .ok s ∧
          ∃ v ∈ s.visits, s.cache.usage v.scope v.key.node v.key.stage = 0 := by
  exact ⟨by decide +kernel, _, make_lentTwice, of_strays strays_lentTwice⟩

/-- A visit of `lentTwice` leads to a key that was not counted. -/
theorem lentTwice_not_awaited :
    ∃ s, run (.ofGraph lentTwice .standard) [(.fragment, ⟨6⟩)] = .ok s ∧
      ∃ v ∈ s.visits, ¬v.Awaited (.ofGraph lentTwice .standard) s.cache := by
  obtain ⟨s, hs, v, hv, husage⟩ := of_strays strays_lentTwice
  refine ⟨s, hs, ?_⟩
  by_contra hall
  have awaited : ∀ w ∈ s.visits, w.Awaited (.ofGraph lentTwice .standard) s.cache := by
    intro w hw
    by_contra hnot
    exact hall ⟨w, hw, hnot⟩
  have counted := (usage_of_visits_iff hs).2 awaited v hv
  omega

end Build

end ShaderGraph
