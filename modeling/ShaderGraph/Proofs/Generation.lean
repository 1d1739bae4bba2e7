import ShaderGraph.Proofs.Survey
import ShaderGraph.Proofs.Typing

/-!
# Generation, node by node

A law that says nothing about contexts and scopes (`Law.Unscoped`) is kept by the whole generation
when it is kept by what happens at single nodes, at variables and at varyings, and by the visit at
each node (`generator_runs`). There may be another law for each stage.

`Placed p o env s` says that a step is taken in a scope whose records are kept in the scope `o`.
Steps only add scopes (`BuildState.Advances`), so the place stays the same, and what a cache node
refers to has a place of its own unless the node shares its scope (`Placed.cacheScope`). A change
is `BuildState.Quiet` when generation does not see it.

The laws of a family `L e o` speak of steps in the stage `e` and in a scope whose records are kept in
`o`, and of nothing else around a step (`Law.Sited`). Contexts and cache nodes only change what the
nodes below them see, and a varying takes its source to the vertex program; so a family is kept by
the whole generation when it is kept by what happens at ordinary nodes, at variables and by the visit
at each node (`Sited.generator`).
-/

namespace ShaderGraph

open Build

/-- A law that says nothing about the contexts and the scope around a node. -/
structure Law.Unscoped (L : Law) : Prop extends L.Indifferent where
  scopes : ∀ {env s} (id : NodeId) (shares : Bool), L.inv env s →
    L.rel [] s { s with cache := (s.cache.scopeFor env.scope id shares).2 }

/-- The steps of a generator keep to a law. -/
structure Law.Runs (L : Law) (g : Generator) : Prop where
  emit : ∀ {env id}, L.Keeps env (g.emit id)
  place : ∀ {env id}, L.Yields env (g.place id) fun r => L.places r.1

namespace Law

variable {L : Law} {env : Env} {g : Generator} {id : NodeId} {n : Node}

theorem Runs.serves (hL : L.Indifferent) (hg : L.Runs g) : L.Serves env g id :=
  ⟨fun _ _ _ => hg.emit, fun _ => hg.place, fun _ m _ => typeOf_indifferent hL m⟩

/-- The code of a node that changes what the nodes below it see, apart from varyings. -/
theorem Unscoped.generateShifting (hL : L.Unscoped) (hg : L.Runs g) (hs : n.shifts = true)
    (varying : ∀ source name interpolation sampling,
      n = .varying source name interpolation sampling →
        L.Keeps env (buildVarying g id source name interpolation sampling)) :
    L.Keeps env (generateNode g id n) := by
  cases n with
  | varying source name interpolation sampling => exact .map _ (varying _ _ _ _ rfl)
  | context inner values =>
    intro s hi
    show Meets (inContext id values (g.emit inner)) env s _ _
    rw [meets_inContext]
    have grown := hL.types s (s.frames.extend (Frame.current env.frames) id).2 s.types
    refine (hg.emit _ ?_).imp fun _ _ hr => L.trans grown hr
    exact hL.surroundings (L.mono hi grown) rfl rfl
  | contextValue key fallback =>
    intro s hi
    show Meets (withContextValue key fallback g.emit) env s _ _
    rw [meets_withContextValue]
    split
    · next c outer _ =>
      have around : L.inv { env with frames := outer } s := hL.surroundings hi rfl rfl
      exact hg.emit s around
    · exact hg.emit s hi
    · exact hL.ends _
  | cache inner shares =>
    intro s hi
    unfold Build.generateNode
    rw [meets_bind, meets_cacheScope, meets_inScope]
    have grown := hL.scopes id shares hi
    refine (hg.emit _ ?_).imp fun _ _ hr => L.trans grown hr
    exact hL.surroundings (L.mono hi grown) rfl rfl
  | _ => cases hs

/-- The code of a node, taken for granted for varyings, for variables and for ordinary nodes. -/
theorem Unscoped.generateSpecial (hL : L.Unscoped) (hg : L.Runs g)
    (varying : ∀ source name interpolation sampling,
      n = .varying source name interpolation sampling →
        L.Keeps env (buildVarying g id source name interpolation sampling))
    (var : ∀ value name readOnly, n = .var value name readOnly →
      L.Keeps env (buildVariable g id value name readOnly))
    (plain : n.isSpecial = false → L.Keeps env (generateNode g id n)) :
    L.Keeps env (generateNode g id n) := by
  cases hspecial : n.isSpecial with
  | true =>
    cases n with
    | var value name readOnly => exact .map _ (var _ _ _ rfl)
    | varying | context | contextValue | cache => exact hL.generateShifting hg rfl varying
    | _ => cases hspecial
  | false => exact plain hspecial

/-- The code of a node, where varyings and variables are taken for granted. -/
theorem Unscoped.generateNode (hL : L.Unscoped) (hc : L.Closed) (hg : L.Runs g)
    (hn : env.plan.node id = .ok n)
    (varying : ∀ source name interpolation sampling,
      n = .varying source name interpolation sampling →
        L.Keeps env (buildVarying g id source name interpolation sampling))
    (var : ∀ value name readOnly, n = .var value name readOnly →
      L.Keeps env (buildVariable g id value name readOnly)) : L.Keeps env (generateNode g id n) :=
  hL.generateSpecial hg varying var fun hs =>
    .generateNode hc hn hs (typeOf_indifferent hL.toIndifferent id)
      fun _ _ => hg.serves hL.toIndifferent

end Law

namespace Build

open Law

variable {L : Stage → Law}

/-- Generation keeps to a law in each stage when each node with the visit at it does. -/
theorem generator_runs (unscoped : ∀ e, (L e).Unscoped) (plain : ∀ e, (L e).Plain)
    (places : ∀ e fuel id env s, Meets ((generator fuel).place id) env s (fun _ => True)
      fun r _ => (L e).places r.1)
    (node : ∀ e depth env s id n, (∀ e, (L e).Runs (generator depth)) → (L e).inv env s →
      env.plan.node id = .ok n →
        Meets (generateNode (generator depth) id n) env s (L e).ends fun code s' =>
          (L e).rel [] s { s' with visits := visitAt env s id code :: s'.visits })
    (fuel : Nat) (e : Stage) : (L e).Runs (generator fuel) := by
  induction fuel generalizing e with
  | zero => exact ⟨fun _ _ => (unscoped e).ends _, fun _ _ => (unscoped e).ends _⟩
  | succ fuel ih =>
    refine ⟨fun {env id} s hi => ?_, fun {env id} s hi => ?_⟩
    · refine meets_emitNode (unscoped e).ends fun m n _ hn => ?_
      exact (node e _ env s m n ih hi hn).mono (fun _ _ => trivial) fun _ _ h => h
    · have keeps : (L e).Keeps env ((generator (fuel + 1)).place id) := by
        refine .resolve fun m hm => .located (.node fun n hn => ?_)
        refine .bind (typeOf_indifferent (unscoped e).toIndifferent m) fun type => ?_
        exact .bind (.placeOf (plain e) (ih e).emit fun c _ => (ih e).serves (unscoped e).toIndifferent)
          fun _ => .pure _
      exact (keeps s hi).and (places e (fuel + 1) id env s)

/-- Generation of the roots keeps to a law that does not depend on the stage around it. -/
theorem generate_keeps {p : Plan} {active : List Stage} {M : Law} {rs : List (Stage × NodeId)}
    {s s' : BuildState} (unscoped : ∀ e, (L e).Unscoped) (runs : ∀ fuel e, (L e).Runs (generator fuel))
    (finish : ∀ e env output, (L e).Keeps env (modifyHere fun b => { b with output := output }))
    (inv : ∀ e s, M.inv (Env.root p active e) s → (L e).inv (Env.root p active e) s)
    (rel : ∀ e s s', (L e).rel [] s s' → M.rel [] s s') (ends : ∀ f, M.ends f)
    (start : ∀ e, M.inv (Env.root p active e) s)
    (h : atRoots p active generateStage rs s = .ok s') : M.rel [] s s' := by
  have walk : ∀ r ∈ rs, M.Keeps (Env.root p active r.1) (generateStage r.2) := by
    intro r _ s hi
    have keeps : (L r.1).Keeps (Env.root p active r.1) (generateStage r.2) :=
      .generateStage (finish r.1 _) ((runs _ r.1).serves (unscoped r.1).toIndifferent)
    exact (keeps s (inv r.1 s hi)).mono (fun _ _ => ends _) fun _ s' hr => rel r.1 _ _ hr
  have all := Law.Keeps.atRoots (fun r _ => start r.1) walk
  rw [h] at all
  exact all

end Build

/-! ## Where records are kept -/

/-- What holds of the scopes and the varyings throughout a build. -/
structure BuildState.Scoped (p : Plan) (s : BuildState) : Prop where
  cache : s.cache.Regular p
  varyings : VaryingsFrom p s.varyings

/-- A later state of a build, as far as scopes and varyings go. -/
structure BuildState.Advances (p : Plan) (s s' : BuildState) : Prop where
  grows : s.cache.Grows s'.cache
  regular : s.Scoped p → s'.Scoped p

namespace BuildState.Advances

variable {p : Plan} {s s' s'' : BuildState}

theorem refl (s : BuildState) : s.Advances p s := ⟨.refl _, id⟩

theorem trans (h : s.Advances p s') (h' : s'.Advances p s'') : s.Advances p s'' :=
  ⟨h.grows.trans h'.grows, fun hs => h'.regular (h.regular hs)⟩

/-- A change that leaves scopes and varyings alone. -/
theorem of_eq (hp : s'.cache.parents = s.cache.parents) (hd : s'.cache.derived = s.cache.derived)
    (hv : s'.varyings = s.varyings) : s.Advances p s' where
  grows := ⟨hp ▸ List.prefix_rfl, fun _ _ h => hd ▸ h⟩
  regular hs := by
    refine ⟨⟨?_, ?_, ?_⟩, hv ▸ hs.varyings⟩
    · unfold NodeCache.Has
      rw [hp]
      exact hs.cache.root
    · rw [hp]
      exact hs.cache.older
    · rw [hp, hd]
      exact hs.cache.derived

theorem of_still (h : s'.still = s.still) : s.Advances p s' :=
  of_eq (congrArg (NodeCache.parents ∘ Still.cache) h)
    (congrArg (NodeCache.derived ∘ Still.cache) h) (congrArg Still.varyings h)

/-- Contexts have nothing to do with scopes and varyings. -/
theorem frames (fs : FrameTable) : s.Advances p { s with frames := fs } := of_eq rfl rfl rfl

/-- A varying was entered. -/
theorem of_entering (h : (Law.enteringVarying p).rel [] s s') : s.Advances p s' := by
  have same : s'.cache = s.cache := congrArg Still.cache h.1
  refine ⟨?_, fun hs => ⟨?_, h.2 hs.varyings⟩⟩
  · rw [same]
    exact .refl _
  · rw [same]
    exact hs.cache

end BuildState.Advances

/-- A change that generation does not see: nothing is visited, stated or bound to a name. -/
structure BuildState.Quiet (s s' : BuildState) : Prop where
  visits : s'.visits = s.visits
  inner : ∀ t, (s'.stages.get t).inner = (s.stages.get t).inner
  outer : ∀ t, (s'.stages.get t).outer = (s.stages.get t).outer
  bound : ∀ k, s'.cache.bound? k = s.cache.bound? k

namespace BuildState.Quiet

variable {s s' s'' : BuildState}

theorem refl (s : BuildState) : s.Quiet s := ⟨rfl, fun _ => rfl, fun _ => rfl, fun _ => rfl⟩

theorem trans (h : s.Quiet s') (h' : s'.Quiet s'') : s.Quiet s'' where
  visits := h'.visits.trans h.visits
  inner t := (h'.inner t).trans (h.inner t)
  outer t := (h'.outer t).trans (h.outer t)
  bound k := (h'.bound k).trans (h.bound k)

theorem frames (fs : FrameTable) : s.Quiet { s with frames := fs } :=
  ⟨rfl, fun _ => rfl, fun _ => rfl, fun _ => rfl⟩

/-- A new scope has no records yet. -/
theorem scopeFor {scope : ScopeId} {id : NodeId} {shares : Bool} :
    s.Quiet { s with cache := (s.cache.scopeFor scope id shares).2 } where
  visits := rfl
  inner _ := rfl
  outer _ := rfl
  bound _ := NodeCache.bound?_of_records NodeCache.records_scopeFor

theorem of_entering {p : Plan} (h : (Law.enteringVarying p).rel [] s s') : s.Quiet s' where
  visits := congrArg Still.visits h.1
  inner := congrFun (congrArg Still.inner h.1)
  outer := congrFun (congrArg Still.outer h.1)
  bound _ := NodeCache.bound?_of_records (congrArg (NodeCache.records ∘ Still.cache) h.1)

theorem of_still (h : s'.still = s.still) : s.Quiet s' where
  visits := congrArg Still.visits h
  inner := congrFun (congrArg Still.inner h)
  outer := congrFun (congrArg Still.outer h)
  bound _ := NodeCache.bound?_of_records (congrArg (NodeCache.records ∘ Still.cache) h)

end BuildState.Quiet

theorem scoped_start (p : Plan) : (BuildState.start p).Scoped p :=
  ⟨NodeCache.regular_empty p, fun _ _ h => nomatch h⟩

/-- A step is taken in a scope whose records are kept in `o`. -/
structure Placed (p : Plan) (o : ScopeId) (env : Env) (s : BuildState) : Prop where
  plan : env.plan = p
  regular : s.Scoped p
  has : s.cache.Has env.scope
  owner : s.cache.owner env.scope = o

namespace Placed

variable {p : Plan} {o : ScopeId} {env : Env} {s s' : BuildState} {id inner : NodeId}
  {shares : Bool}

theorem mono (h : Placed p o env s) (ha : s.Advances p s') : Placed p o env s' where
  plan := h.plan
  regular := ha.regular h.regular
  has := h.has.mono ha.grows
  owner := (h.regular.cache.owner_of_grows ha.grows h.has).trans h.owner

theorem keyAt (h : Placed p o env s) : keyAt env s id = ⟨o, id, some env.stage⟩ := by
  unfold Build.keyAt NodeCache.key
  rw [h.owner]

/-- The same scope seen from elsewhere. -/
theorem of_scope {env' : Env} (h : Placed p o env s) (hp : env'.plan = env.plan)
    (hs : env'.scope = env.scope) : Placed p o env' s :=
  ⟨hp.trans h.plan, h.regular, hs ▸ h.has, hs ▸ h.owner⟩

theorem loops (l : List ActiveLoop) (h : Placed p o env s) : Placed p o { env with loops := l } s :=
  h.of_scope rfl rfl

theorem loops_of_stage {e : Stage} (l : List ActiveLoop) (h : Placed p o env s ∧ env.stage = e) :
    Placed p o { env with loops := l } s ∧ { env with loops := l }.stage = e :=
  ⟨h.1.loops l, h.2⟩

theorem inside (h : Placed p o env s) (frame : FrameId) (values : List (String × NodeId)) :
    Placed p o (inside env frame values) s := h.of_scope rfl rfl

theorem frames (h : Placed p o env s) (fs : List Frame) :
    Placed p o { env with frames := fs } s := h.of_scope rfl rfl

theorem within (h : Placed p o env s) (t : Stage) : Placed p o (within env t) s := by
  refine h.of_scope ?_ ?_
  · unfold Build.within
    split <;> rfl
  · unfold Build.within
    split <;> rfl

/-- The root of a stage is placed in the scope of the stage as a whole. -/
theorem root (hs : s.Scoped p) (active : List Stage) (t : Stage) :
    Placed p .root (Env.root p active t) s := by
  refine ⟨rfl, hs, hs.cache.root, ?_⟩
  show s.cache.owner .root = .root
  unfold NodeCache.owner
  cases hn : s.cache.parents.length with
  | zero => rfl
  | succ n =>
    rw [NodeCache.ownerIn]
    split
    · next parent hp => exact absurd (hs.cache.older _ _ hp) (Nat.not_lt_zero _)
    · rfl

theorem cacheScope (h : Placed p o env s) (hn : p.node id = .ok (.cache inner shares))
    {d : ScopeId × NodeCache} (hd : s.cache.scopeFor env.scope id shares = d) :
    s.Advances p { s with cache := d.2 } ∧
      Placed p (if shares then o else d.1) { env with scope := d.1 } { s with cache := d.2 } := by
  subst hd
  have regular := h.regular.cache.scopeFor h.has hn
  have advances : s.Advances p
      { s with cache := (s.cache.scopeFor env.scope id shares).2 } :=
    ⟨NodeCache.grows_scopeFor, fun hs => ⟨regular, hs.varyings⟩⟩
  -- a scope that shares is kept where the one around it is, any other has a place of its own
  obtain ⟨has, owner⟩ := regular.owner_derived NodeCache.derived_scopeFor hn
  refine ⟨advances, h.plan, advances.regular h.regular, has, owner.trans ?_⟩
  rw [(h.mono advances).owner]

end Placed

/-! ## Laws with a place -/

/-- Laws about the stage and the place of a step. -/
structure Law.Sited (p : Plan) (L : Stage → ScopeId → Law) : Prop where
  site : ∀ {e o env s}, (L e o).inv env s → Placed p o env s ∧ env.stage = e
  move : ∀ {e o env s e' o' env'}, (L e o).inv env s → Placed p o' env' s → env'.stage = e' →
    (L e' o').inv env' s
  /-- What generation does not see, the laws do not see. -/
  quiet : ∀ {e o env s s'}, (L e o).inv env s → s.Advances p s' → s.Quiet s' → (L e o).rel [] s s'
  /-- The laws do not look at the scope. -/
  scope : ∀ {e o o' s s'}, (L e o).rel [] s s' → (L e o').rel [] s s'
  /-- What happens in the vertex program keeps to the law of the stage that asks for it. -/
  write : ∀ {e o s s'}, (L .vertex o).rel [] s s' → (L e o).rel [] s s'
  ends : ∀ {e o} f, (L e o).ends f
  names : ∀ {e o} n, (L e o).names n := by exact fun _ => trivial

namespace Law.Sited

variable {p : Plan} {L : Stage → ScopeId → Law} {e : Stage} {o : ScopeId} {env : Env}
  {g : Generator} {id : NodeId} {n : Node} (hL : Law.Sited p L)

include hL

theorem unmoved : (L e o).Unmoved where
  ends := hL.ends
  rel hi hs := hL.quiet hi (.of_still hs) (.of_still hs)
  names := hL.names

theorem typeOf (id : NodeId) : (L e o).Keeps env (typeOf id) :=
  hL.unmoved.keeps (typeOf_still id)

theorem serves (hg : (L e o).Runs g) : (L e o).Serves env g id :=
  ⟨fun _ _ _ => hg.emit, fun _ => hg.place, fun _ m _ => hL.typeOf m⟩

/-- A step in the vertex program. -/
theorem inVertex {step : Build Unit} (h : (L .vertex o).Keeps (within env .vertex) step) :
    (L e o).Keeps env (Build.inStage .vertex step) := by
  refine h.inStage (fun s hi => ?_) (fun _ _ hr => hL.write hr) fun f _ => hL.ends f
  exact hL.move hi ((hL.site hi).1.within .vertex) (stage_within env .vertex)

/-- A varying keeps to the laws when its assignment in the vertex program does. -/
theorem buildVarying (hg : ∀ e o, (L e o).Runs g) {source : NodeId} {name : Option String}
    {interpolation : Interpolation} {sampling : Option Sampling}
    (hn : p.node id = .ok (.varying source name interpolation sampling))
    (assign : ∀ {env} v value, (L .vertex o).Keeps env
      (addStatement (.assign (.reference (.varying .vertex v)) value))) :
    (L e o).Keeps env (buildVarying g id source name interpolation sampling) := by
  refine .buildVarying (fun v type => .assignVarying assign (hL.unmoved.tabular.mark id)
    (hL.serves (hg .vertex o)) v type) (hL.unmoved.tabular.mark id) hL.inVertex
    (fun _ _ h => h) (fun _ _ _ _ h => h) (fun s hs => ?_) fun v s hs hv => ?_
  · refine (registerVarying_still hn (hL.site hs).1.regular.varyings).mono (fun f _ => hL.ends f) ?_
    exact fun v s' hr => ⟨hL.quiet hs (.of_entering hr.1) (.of_entering hr.1), hr.2⟩
  · have locate : (Law.enteringVarying p).Keeps env (locateVarying id v) :=
      locateVarying_entering (hv ▸ hn)
    refine (locate s trivial).mono (fun f _ => hL.ends f) fun _ s' hr => ?_
    exact hL.quiet hs (.of_entering hr) (.of_entering hr)

/-- The code of a node that changes what the nodes below it see. -/
theorem generateShifting (hg : ∀ e o, (L e o).Runs g) (hn : p.node id = .ok n)
    (hs : n.shifts = true)
    (assign : ∀ {env} v value, (L .vertex o).Keeps env
      (addStatement (.assign (.reference (.varying .vertex v)) value))) :
    (L e o).Keeps env (generateNode g id n) := by
  cases n with
  | varying source name interpolation sampling => exact .map _ (hL.buildVarying hg hn assign)
  | context inner values =>
    intro s hi
    show Meets (inContext id values (g.emit inner)) env s _ _
    rw [meets_inContext]
    obtain ⟨placed, he⟩ := hL.site hi
    let extended := s.frames.extend (Frame.current env.frames) id
    have grown := hL.quiet hi (.frames extended.2) (.frames extended.2)
    have placed' := (placed.mono (.frames extended.2)).inside extended.1 values
    refine ((hg e o).emit _ (hL.move ((L e o).mono hi grown) placed' he)).imp fun _ _ hr => ?_
    exact (L e o).trans grown hr
  | contextValue key fallback =>
    intro s hi
    show Meets (withContextValue key fallback g.emit) env s _ _
    rw [meets_withContextValue]
    obtain ⟨placed, he⟩ := hL.site hi
    split
    · next c outer _ => exact (hg e o).emit s (hL.move hi (placed.frames outer) he)
    · exact (hg e o).emit s hi
    · exact hL.ends _
  | cache inner shares =>
    intro s hi
    unfold generateNode
    rw [meets_bind, meets_cacheScope, meets_inScope]
    obtain ⟨placed, he⟩ := hL.site hi
    obtain ⟨advances, placed'⟩ := placed.cacheScope hn rfl
    have grown := hL.quiet hi advances .scopeFor
    refine ((hg e _).emit _ (hL.move ((L e o).mono hi grown) placed' he)).mono
      (fun f _ => hL.ends f) fun _ s' hr => ?_
    exact (L e o).trans grown (hL.scope hr)
  | _ => cases hs

/-- Generation keeps to the laws when each node with the visit at it does. -/
theorem generator
    (places : ∀ {e o} fuel id env s, Meets ((generator fuel).place id) env s (fun _ => True)
      fun r _ => (L e o).places r.1)
    (node : ∀ {e o} depth env s id n, (∀ e o, (L e o).Runs (Build.generator depth)) →
      (L e o).inv env s → p.node id = .ok n →
        Meets (generateNode (Build.generator depth) id n) env s (fun _ => True) fun code s' =>
          (L e o).rel [] s { s' with visits := visitAt env s id code :: s'.visits })
    (fuel : Nat) (e : Stage) (o : ScopeId) : (L e o).Runs (Build.generator fuel) := by
  induction fuel generalizing e o with
  | zero => exact ⟨fun _ _ => hL.ends _, fun _ _ => hL.ends _⟩
  | succ fuel ih =>
    refine ⟨fun {env id} s hi => ?_, fun {env id} s hi => ?_⟩
    · obtain rfl := (hL.site hi).1.plan
      exact meets_emitNode hL.ends fun m n _ hn => node fuel env s m n ih hi hn
    · have keeps : (L e o).Keeps env ((Build.generator (fuel + 1)).place id) := by
        refine .resolve fun m hm => .located (.node fun n hn => ?_)
        refine .bind (hL.typeOf m) fun type => ?_
        exact .bind (.placeOf hL.unmoved.tabular.plain (ih e o).emit fun c _ => hL.serves (ih e o))
          fun _ => .pure _
      exact (keeps s hi).and ((places (fuel + 1) id env s))

omit hL in
/-- What generation of the roots keeps to, seen from outside of the stages. -/
def outside (hL : Law.Sited p L) (active : List Stage) : Law where
  inv _ s := ∀ t, (L t .root).inv (Env.root p active t) s
  rel _ s s' := (L .vertex .root).rel [] s s'
  ends _ := True
  refl := (L .vertex .root).refl
  trans h h' := (L .vertex .root).trans h h'
  mono hi hr t := (L t .root).mono (hi t) (hL.write hr)
  loops _ hi := hi
  ordinary _ := trivial
  located _ := trivial

/-- Generation of the roots keeps to the laws when the generator does. -/
theorem generate (same : ∀ {e s s'}, (L e .root).rel [] s s' → (L .vertex .root).rel [] s s')
    (runs : ∀ fuel e o, (L e o).Runs (Build.generator fuel)) {active : List Stage}
    {rs : List (Stage × NodeId)} {s s' : BuildState}
    (start : ∀ t, (L t .root).inv (Env.root p active t) s)
    (h : atRoots p active generateStage rs s = .ok s') : (L .vertex .root).rel [] s s' := by
  have walk : ∀ r ∈ rs, (hL.outside active).Keeps (Env.root p active r.1) (generateStage r.2) := by
    intro r _ s hi
    have keeps : (L r.1 .root).Keeps (Env.root p active r.1) (generateStage r.2) :=
      .generateStage hL.unmoved.tabular.finish (hL.serves (runs _ _ _))
    exact (keeps s (hi r.1)).mono (fun _ _ => trivial) fun _ s' hr => same hr
  have all := Law.Keeps.atRoots (L := hL.outside active) (fun _ _ => start) walk
  rw [h] at all
  exact all

end Law.Sited

end ShaderGraph
