import ShaderGraph.Proofs.TwinNodes

/-!
# Twin runs and twin plans

The generator, the walk of analysis and with them the runs of twin builds take the same course.

Neither the labels of nodes nor the dialect has a part in what custom nodes are replaced by, so the
plans of twin builds are twins (`Plan.make_twin`). A dialect can refuse the name of a struct.
-/

namespace ShaderGraph

/-! ## Twin runs -/

variable {same : Prop}

namespace Env.Twin

variable {env env' : Env}

theorem inScope (h : env.Twin same env') (scope : ScopeId) :
    Env.Twin same { env with scope := scope } { env' with scope := scope } where
  __ := h
  scope := rfl

theorem below (h : env.Twin same env') (id : NodeId) :
    Env.Twin same { env with path := id :: env.path } { env' with path := id :: env'.path } where
  __ := h
  path := congrArg (id :: ·) h.path

end Env.Twin

namespace Build.Twins

variable {env env' : Env} {g : Generator} {id : NodeId}

/-! ### Generation -/

theorem generateNode (hg : g.Twin same) (henv : env.Twin same env') (id : NodeId) (n : Node) :
    Twins same env env' (Alike same Option.isSome) (Build.generateNode g id n)
      (Build.generateNode g id n) := by
  have valued : ∀ {step step' : Build Expr}, Twins same env env' (Made same) step step' →
      Twins same env env' (Alike same Option.isSome) (some <$> step) (some <$> step') :=
    fun h => h.map fun _ _ => Made.some
  have without : ∀ {step step' : Build Unit}, Twins same env env' (fun _ _ => True) step step' →
      Twins same env env' (Alike same Option.isSome) (withoutValue step) (withoutValue step') :=
    fun h => h.bind fun _ _ _ => .pure (.refl _ _)
  cases n with
  | const type values => exact valued (buildConstant henv type values)
  | uniform name type group update value =>
    refine (registerUniform henv id name type group update value).bind fun r r' ⟨hgroup, hu⟩ => ?_
    obtain ⟨group, u⟩ := r
    obtain ⟨group', u'⟩ := r'
    dsimp only at hgroup hu ⊢
    subst hgroup
    exact valued (useUniform henv group hu)
  | meshAttribute name type => exact valued (buildAttribute henv name type)
  | varying source name interpolation sampling =>
    exact valued (buildVarying hg henv id source name interpolation sampling)
  | property name type => exact valued (buildProperty henv name type)
  | builtin b => exact valued (useBuiltin henv b)
  | texture name uv level => exact buildTemp henv (valued (buildTexture hg henv name uv level))
  | storageBuffer name element count access =>
    exact valued (buildStorage henv name element count access)
  | var value name readOnly => exact valued (buildVariable hg henv id value name readOnly)
  | assign target value op => exact without (buildAssign hg henv target value op)
  | operator op left right => exact buildTemp henv (valued (buildOperator hg henv op left right))
  | unary op operand => exact buildTemp henv (buildUnary hg henv op operand)
  | math method args => exact buildTemp henv (valued (buildMath hg henv id method args))
  | split source components => exact buildSplit hg henv source components
  | join parts explicit => exact buildTemp henv (valued (buildJoin hg henv id parts))
  | convert source target => exact buildTemp henv (buildConvert hg henv source target)
  | conditional condition thenNode elseNode =>
    exact buildConditional hg henv id condition thenNode elseNode
  | loop params body => exact without (buildLoop hg henv id params body)
  | loopIndex loop param => exact valued (buildCounter henv loop param)
  | jump j => exact without (buildJump henv j)
  | stack nodes output => exact buildStack hg henv nodes output
  | structType name members => exact .fail
  | struct layout values => exact buildTemp henv (valued (buildStruct hg henv id values))
  | array element values => exact buildTemp henv (valued (buildArray hg henv element values))
  | member base name => exact buildMember hg henv base name
  | index base i => exact buildIndex hg henv base i
  | context inner values => exact inContext henv fun he => hg.emit he inner
  | contextValue key fallback => exact withContextValue henv fun he c => hg.emit he c
  | cache inner shares =>
    refine (cacheScope henv).bind fun scope scope' hs => ?_
    subst hs
    exact .inScope (hg.emit (henv.inScope scope) inner)
  | call function args => exact buildCall hg henv id function args
  | remap => exact .fail
  | custom => exact .fail

theorem recordVisit (henv : env.Twin same env') {s s' : BuildState} {code code' : Option Expr}
    (hs : Alike same BuildState.shape s s') (hc : Alike same Option.isSome code code')
    (id : NodeId) :
    Twins same env env' (fun _ _ => True) (Build.recordVisit s id code)
      (Build.recordVisit s' id code') := by
  refine .read (.change (fun he => ?_) fun s s' h => h)
  have visit : visitAt env s id code = visitAt env' s' id code' := by
    rw [visitAt, visitAt, hs.eq he, hc.eq he, henv.scope, henv.stage, henv.frames, henv.loops.eq he]
  rw [visit]

theorem emitNode (hg : g.Twin same) (henv : env.Twin same env') (id : NodeId) :
    Twins same env env' (Alike same Option.isSome) (Build.emitNode g id) (Build.emitNode g id) := by
  refine (resolve henv id).bind fun m m' hm => .get fun s s' hs => ?_
  subst hm
  have generated : Twins same env env' (Alike same Option.isSome)
      (Build.located m do Build.generateNode g m (← Build.node m))
      (Build.located m do Build.generateNode g m (← Build.node m)) := by
    refine .located ((node henv m).bind fun n n' hn => ?_)
    subst hn
    exact generateNode hg henv m n
  exact generated.bind fun code code' hc => (recordVisit henv hs hc m).bind fun _ _ _ => .pure hc

/-- The generator takes the same course in twin builds. -/
theorem generator_twin (fuel : Nat) : (generator fuel).Twin same := by
  induction fuel with
  | zero => exact ⟨fun _ _ => .exhaust, fun _ _ => .exhaust⟩
  | succ fuel ih => exact ⟨fun henv id => emitNode ih henv id, fun henv id => buildPlace ih henv id⟩

theorem generateRoot (henv : env.Twin same env') (stage : Stage) (root : NodeId) :
    Twins same env env' (Alike same Option.isSome) (Build.generateRoot stage root)
      (Build.generateRoot stage root) := by
  refine (depthBound henv).bind fun fuel fuel' hfuel => ?_
  subst hfuel
  have hg : (generator fuel).Twin same := generator_twin fuel
  have output : Twins same env env' (Alike same Option.isSome)
      (some <$> (generator fuel).value root .vec4) (some <$> (generator fuel).value root .vec4) :=
    (value hg henv root .vec4).map fun _ _ => Made.some
  cases stage with
  | vertex => exact output
  | fragment => exact output
  | compute =>
    refine (hg.emit henv root).bind fun e e' he => ?_
    refine .when (S := fun _ _ => True) (by rw [he.shape]) (fun _ => (typeOf henv root).discard) ?_
    exact .pure (.refl _ _)

theorem generateStage (henv : env.Twin same env') (root : NodeId) :
    Twins same env env' (fun _ _ => True) (Build.generateStage root)
      (Build.generateStage root) := by
  refine (stage henv).bind fun t t' ht => ?_
  subst ht
  refine (generateRoot henv t root).bind fun output output' ho => ?_
  exact modifyHere henv (fun he => by rw [ho.eq he]) fun b b' hb => hb

/-! ### Analysis -/

theorem analyzeNode (henv : env.Twin same env') {analyze : NodeId → Build Unit}
    (h : ∀ {e e' : Env}, e.Twin same e' →
      ∀ c, Twins same e e' (fun _ _ => True) (analyze c) (analyze c))
    (id : NodeId) (n : Node) :
    Twins same env env' (fun _ _ => True) (Build.analyzeNode analyze id n)
      (Build.analyzeNode analyze id n) := by
  have list : ∀ cs : List NodeId,
      Twins same env env' (fun _ _ => True) (cs.forM analyze) (cs.forM analyze) :=
    fun cs => Twins.forM fun c _ => h henv c
  cases n with
  | cache inner shares =>
    refine (cacheScope henv).bind fun scope scope' hs => ?_
    subst hs
    exact .inScope (h (henv.inScope scope) inner)
  | context inner values => exact inContext henv fun he => h he inner
  | contextValue key fallback => exact withContextValue henv fun he c => h he c
  | varying source name interpolation sampling =>
    refine (registerVarying henv id source name interpolation sampling).discard.bind fun _ _ _ => ?_
    exact inStage henv fun he => h he source
  | uniform name type group update value =>
    exact (registerUniform henv id name type group update value).discard
  | meshAttribute name type => exact (registerAttribute henv name type).discard
  | storageBuffer name element count access =>
    exact (registerStorage name element count access).discard
  | texture name uv level => exact (registerTexture name).discard.bind fun _ _ _ => list _
  | call f args => exact (registerFunction henv f).discard.bind fun _ _ _ => list args
  | _ => exact list _

theorem countReference (henv : env.Twin same env') (id : NodeId) :
    Twins same env env' Eq (Build.countReference id) (Build.countReference id) := by
  refine .read ?_
  rw [henv.scope, henv.stage]
  have counted : ∀ s s' : BuildState, s.shape = s'.shape →
      (s.cache.count env'.scope id (some env'.stage)).shape =
        (s'.cache.count env'.scope id (some env'.stage)).shape := fun s s' h =>
    NodeCache.update_shape (congrArg Shape.cache h :) _ _ _ fun _ _ hr =>
      congrArg (fun r => (r.1 + 1, r.2)) hr
  refine .modifyGet (fun s s' h => NodeCache.usage_shape (counted s s' h.shape) _ _ _)
    fun s s' h => ?_
  exact ⟨BuildState.shape_cache h.shape (counted s s' h.shape), fun he => by rw [h.eq he]⟩

theorem below {α β : Type} {R : α → β → Prop} {step : Build α} {step' : Build β}
    (h : Twins same { env with path := id :: env.path } { env' with path := id :: env'.path } R step
      step') : Twins same env env' R (Build.below id step) (Build.below id step') := by
  have inside : Twins same { env with path := id :: env.path }
    { env' with path := id :: env'.path } R
      (Build.located id step) (Build.located id step') := .located h
  exact inside

theorem analyzeIn (fuel : Nat) {env env' : Env} (henv : env.Twin same env') (id : NodeId) :
    Twins same env env' (fun _ _ => True) (Build.analyzeIn fuel id) (Build.analyzeIn fuel id) := by
  induction fuel generalizing env env' id with
  | zero => exact .exhaust
  | succ fuel ih =>
    refine (resolve henv id).bind fun m m' hm => ?_
    subst hm
    have walk : Twins same env env' (fun _ _ => True)
        (do if (← Build.countReference m) = 1 then
              Build.below m do Build.analyzeNode (Build.analyzeIn fuel) m (← Build.node m))
        (do if (← Build.countReference m) = 1 then
              Build.below m do Build.analyzeNode (Build.analyzeIn fuel) m (← Build.node m)) := by
      refine (countReference henv m).bind fun n n' hn => ?_
      subst hn
      refine .ite Iff.rfl (fun _ => ?_) fun _ => .pure trivial
      refine below ((node (henv.below m) m).bind fun n n' hn => ?_)
      subst hn
      exact analyzeNode (henv.below m) (fun he c => ih he c) m n
    refine .read (.when (S := fun _ _ => True) (by rw [henv.path]) (fun _ => ?_) walk)
    exact .located .fail

theorem analyze (henv : env.Twin same env') (id : NodeId) :
    Twins same env env' (fun _ _ => True) (Build.analyze id) (Build.analyze id) := by
  refine .read ?_
  rw [henv.plan.graph.size]
  exact analyzeIn _ henv id

end Build.Twins

/-! ## Twin plans -/

variable {α β : Type}

/-! ### Graphs -/

namespace Graph

@[simp] theorem nodes_push (g : Graph) (n : Node) : (g.push n).2.nodes = g.nodes ++ [n] := by
  simp [nodes, push]

@[simp] theorem nodes_setLabel (g : Graph) (id : NodeId) (l : String) :
    (g.setLabel id l).nodes = g.nodes := by
  refine List.ext_getElem? fun i => ?_
  rw [← get?_eq (g.setLabel id l) ⟨i⟩, get?_setLabel, get?_eq]

namespace Twin

variable {g g' : Graph}

theorem refl (g : Graph) : g.Twin g := ⟨rfl, rfl, rfl, rfl, rfl⟩

theorem trans {g'' : Graph} (h : g.Twin g') (h' : g'.Twin g'') : g.Twin g'' :=
  ⟨h.uid.trans h'.uid, h.version.trans h'.version, h.nodes.trans h'.nodes,
    h.functions.trans h'.functions, h.defaultUv.trans h'.defaultUv⟩

theorem push_fst (h : g.Twin g') (n n' : Node) : (g.push n).1 = (g'.push n').1 :=
  congrArg NodeId.mk h.size

theorem push (h : g.Twin g') (n : Node) : (g.push n).2.Twin (g'.push n).2 where
  __ := h
  version := congrArg (· + 1) h.version
  nodes := by rw [nodes_push, nodes_push, h.nodes]

theorem setLabel (h : g.Twin g') (id : NodeId) (l : String) :
    (g.setLabel id l).Twin (g'.setLabel id l) where
  __ := h
  nodes := by rw [nodes_setLabel, nodes_setLabel, h.nodes]

end Twin

end Graph

/-- A step of an author that does the same to twin graphs. -/
def Author.Twins (step : AuthorT Id α) : Prop :=
  ∀ g g' : Graph, g.Twin g' → (step g).1 = (step g').1 ∧ (step g).2.Twin (step g').2

namespace Author.Twins

theorem push (n : Node) : Author.Twins (Author.push n) := fun _ _ h => ⟨h.push_fst n n, h.push n⟩

theorem bind {step : AuthorT Id α} {next : α → AuthorT Id β} (h : Author.Twins step)
    (hn : ∀ a, Author.Twins (next a)) : Author.Twins (step >>= next) := by
  intro g g' hg
  obtain ⟨value, graph⟩ := h g g' hg
  show (next (step g).1 (step g).2).1 = (next (step g').1 (step g').2).1 ∧
    (next (step g).1 (step g).2).2.Twin (next (step g').1 (step g').2).2
  rw [← value]
  exact hn _ _ _ graph

theorem remapExpansion (node inLow inHigh outLow outHigh : NodeId) :
    Author.Twins (Author.remapExpansion node inLow inHigh outLow outHigh) := by
  refine .bind (.push _) fun offset => .bind (.push _) fun inRange => .bind (.push _) fun t => ?_
  exact .bind (.push _) fun outRange => .bind (.push _) fun scaled => .push _

end Author.Twins

/-! ### Replacing nodes -/

theorem Custom.addNodes_twin {g g' : Graph} (h : g.Twin g') (base : Nat)
    (nodes : List (NodeOf Ref Custom × Option String)) :
    (addNodes g base nodes).Twin (addNodes g' base nodes) := by
  induction nodes generalizing g g' with
  | nil => exact h
  | cons n rest ih =>
    refine ih ?_
    have pushed := h.push (n.1.map (Ref.resolve base))
    dsimp only
    split
    · rw [h.push_fst]
      exact pushed.setLabel _ _
    · exact pushed

/-- Descriptions ignore labels. -/
theorem Custom.setup_ignoresLabels : Custom.setup.IgnoresLabels := by
  intro c g g' h
  unfold Custom.setup
  split
  · exact ⟨trivial, h⟩
  · exact ⟨h.push_fst _ _, h.push _⟩
  · rw [h.size]
    exact ⟨rfl, addNodes_twin h _ _⟩

namespace Plan

theorem record_twin {g g' : Graph} (h : g.Twin g') (updates : OrderedMap NodeId UpdateRecord)
    (id : NodeId) (label : String) (cadence : Cadence) :
    record updates g id label cadence = record updates g' id label cadence := by
  rw [record, record, h.uid]

variable {p p' : Plan}

theorem checkTarget_twin {g g' : Graph} (h : g.Twin g') (id target : NodeId) :
    checkTarget g id target = checkTarget g' id target := by
  rw [checkTarget, checkTarget, h.get?]

theorem addExpansion_twin (h : p.Twin same p') (id : NodeId) :
    Agrees True Eq (p.addExpansion id).1 (p'.addExpansion id).1 ∧
      (p.addExpansion id).2.Twin same (p'.addExpansion id).2 := by
  unfold addExpansion
  rw [h.graph.get?]
  split
  · next node inLow inHigh outLow outHigh _ =>
    obtain ⟨target, graph⟩ :=
      Author.Twins.remapExpansion node inLow inHigh outLow outHigh p.graph p'.graph h.graph
    refine ⟨?_, { h with graph := graph, labels := h.labels.imp_left fun same => by rw [same] }⟩
    dsimp only [Id.run]
    rw [target, checkTarget_twin graph]
    exact .refl fun _ _ => rfl
  · next c _ =>
    -- a setup that looks at labels is asked about one graph
    obtain ⟨target, graph, labels⟩ : Agrees True Eq (p.host.setup c p.graph).1
        (p'.host.setup c p'.graph).1 ∧
          (p.host.setup c p.graph).2.Twin (p'.host.setup c p'.graph).2 ∧
          ((p.host.setup c p.graph).2 = (p'.host.setup c p'.graph).2 ∨
            p.host.setup.IgnoresLabels) := by
      rw [← h.host]
      rcases h.labels with same | ignores
      · rw [← same]
        exact ⟨.refl fun _ _ => rfl, .refl _, .inl rfl⟩
      · exact ⟨(ignores c _ _ h.graph).1, (ignores c _ _ h.graph).2, .inr ignores⟩
    refine ⟨(target.mapError _ _).bind fun m m' hm => ?_, ?_⟩
    · rw [hm, checkTarget_twin graph]
      exact .refl fun _ _ => rfl
    · refine { h with graph := graph, labels := labels, updates := ?_, updatesBefore := ?_ }
      · show record p.updates p.graph id c.name c.update =
          record p'.updates p'.graph id c.name c.update
        rw [h.updates, record_twin h.graph]
      · show record p.updatesBefore p.graph id c.name c.updateBefore =
          record p'.updatesBefore p'.graph id c.name c.updateBefore
        rw [h.updatesBefore, record_twin h.graph]
  · exact ⟨rfl, h⟩
  · exact ⟨trivial, h⟩

theorem replaceNode_twin (h : p.Twin same p') (id : NodeId) :
    Agrees True (Plan.Twin same) (p.replaceNode id) (p'.replaceNode id) := by
  obtain ⟨target, plan⟩ := addExpansion_twin h id
  unfold replaceNode
  revert target plan
  rcases p.addExpansion id with ⟨r, q⟩
  rcases p'.addExpansion id with ⟨r', q'⟩
  intro target plan
  rcases target.both with ⟨e, e', rfl, rfl⟩ | ⟨m, m', rfl, rfl, rfl⟩
  · trivial
  · exact { plan with expansions := by rw [plan.expansions] }

theorem replaceNodes_twin (h : p.Twin same p') (ids : List NodeId) :
    Agrees True (Plan.Twin same) (p.replaceNodes ids) (p'.replaceNodes ids) := by
  induction ids generalizing p p' with
  | nil => exact h
  | cons id rest ih =>
    unfold replaceNodes
    rcases (replaceNode_twin h id).both with ⟨e, e', he, he'⟩ | ⟨q, q', hq, hq', twin⟩
    · rw [he, he']
      trivial
    · rw [hq, hq']
      exact ih twin

theorem pendingFrom_twin (h : p.Twin same p') (fuel : Nat) (ids visited pending : List NodeId) :
    p.pendingFrom fuel ids visited pending = p'.pendingFrom fuel ids visited pending := by
  induction fuel generalizing ids visited pending with
  | zero => rfl
  | succ fuel ih =>
    cases ids with
    | nil => rfl
    | cons id rest => simp only [pendingFrom, h.resolve, h.node, ih]

theorem pending_twin (h : p.Twin same p') (roots : List NodeId) :
    p.pending roots = p'.pending roots := by
  rw [pending, pending, h.graph.referenceCount, pendingFrom_twin h]

theorem expandIn_twin (h : p.Twin same p') (roots : List NodeId) (rounds : Nat) :
    Agrees True (Plan.Twin same) (expandIn roots rounds p) (expandIn roots rounds p') := by
  induction rounds generalizing p p' with
  | zero =>
    unfold expandIn
    rw [pending_twin h]
    split
    · trivial
    · exact h
    · trivial
  | succ rounds ih =>
    unfold expandIn
    rw [pending_twin h]
    split
    · trivial
    · exact h
    · next ids _ _ =>
      rcases (replaceNodes_twin h ids).both with ⟨e, e', he, he'⟩ | ⟨q, q', hq, hq', twin⟩
      · rw [he, he']
        trivial
      · rw [hq, hq']
        exact ih twin

/-! ### Struct layouts -/

/-- A dialect can refuse the name of a struct. -/
theorem addStruct_twin {words words' : List String} (hw : same → words = words')
    (structs : OrderedMap String (List Member)) (name : String) (members : List Member) :
    Agrees same Eq (addStruct words structs name members)
      (addStruct words' structs name members) := by
  by_cases hs : same
  · rw [hw hs]
    exact .refl fun _ _ => rfl
  · unfold addStruct
    split
    · exact .refl fun _ _ => rfl
    · split
      · trivial
      · split
        · split
          · trivial
          · exact hs
        · split
          · exact hs
          · rfl

theorem addStructs_twin {words words' : List String} (hw : same → words = words')
    (nodes : List Node)
    (structs : OrderedMap String (List Member)) :
    Agrees same Eq (addStructs words nodes structs) (addStructs words' nodes structs) := by
  induction nodes generalizing structs with
  | nil => rfl
  | cons n rest ih =>
    cases n with
    | structType name members =>
      unfold addStructs
      rcases (addStruct_twin hw structs name members).cases with
        ⟨taken, taken', ht, ht', h⟩ | ⟨e, e', he, he'⟩ | ⟨alone, taken, e', ht, he'⟩ |
          ⟨alone, e, taken', he, ht'⟩
      · rw [ht, ht', h]
        exact ih taken'
      · rw [he, he']
        trivial
      · rw [he']
        exact .left alone
      · rw [he]
        exact .right alone
    | _ => exact ih structs

theorem collectStructs_twin (h : p.Twin same p') :
    Agrees same (Plan.Twin same) p.collectStructs p'.collectStructs := by
  have words : same →
      Dialect.reservedWords p.options.dialect = Dialect.reservedWords p'.options.dialect :=
    fun hs => by rw [h.options.dialect hs]
  unfold collectStructs
  rw [show p.graph.entries.toList.map Entry.node = p'.graph.entries.toList.map Entry.node from
    h.graph.nodes]
  dsimp only
  rcases (addStructs_twin words (p'.graph.entries.toList.map Entry.node) .empty).cases with
    ⟨structs, structs', ht, ht', equal⟩ | ⟨e, e', he, he'⟩ | ⟨alone, structs, e', ht, he'⟩ |
      ⟨alone, e, structs', he, ht'⟩
  · rw [ht, ht']
    exact { h with structs := equal }
  · rw [he, he']
    trivial
  · rw [he']
    exact .left alone
  · rw [he]
    exact .right alone

theorem expand_twin (h : p.Twin same p') (roots : List NodeId) :
    Agrees True (Plan.Twin same) (p.expand roots) (p'.expand roots) := by
  rw [expand, expand, h.options.maxDepth]
  exact expandIn_twin h roots _

/-- Twin graphs have twin plans, unless a setup looks at labels. -/
theorem make_twin {g g' : Graph} {o o' : BuildOptions} (hg : g.Twin g') (ho : o.Twin same o')
    (roots : List NodeId) {host : Host} (labels : g = g' ∨ host.setup.IgnoresLabels) :
    Agrees same (Plan.Twin same) (make g o roots host) (make g' o' roots host) := by
  have start : (ofGraph g o host).Twin same (ofGraph g' o' host) :=
    ⟨ho, rfl, hg, labels, rfl, rfl, rfl, rfl⟩
  unfold make
  rcases (expand_twin start roots).both with ⟨e, e', he, he'⟩ | ⟨q, q', hq, hq', twin⟩
  · rw [he, he']
    trivial
  · rw [hq, hq']
    exact collectStructs_twin twin

end Plan

end ShaderGraph
