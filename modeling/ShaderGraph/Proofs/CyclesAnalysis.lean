import ShaderGraph.Proofs.Cycles
import ShaderGraph.Proofs.Survey

/-!
# Cycles in generation and in analysis

Generation follows evaluation as well: the nodes that are being generated are situations that lead
to the current one. Each of them takes two levels of the recursion at most, one for its place and
one for its code, so generation does not get too deep where evaluations are short and never come
back (`generator_evaluation`).

Analysis follows evaluation too: the nodes of its path are those of situations that lead to the
current one, so a node that is met below itself is one that evaluation passes twice. Analysis does
not walk again over a node that it met before. That is enough where a node is evaluated from the
same nodes under all contexts (`Plan.Steady`): every node that was met and is not on the path is
one where evaluation ends (`Plan.Ending`).
-/

namespace ShaderGraph

/-! ## Generation -/

namespace Build

open Relation Law

variable {p : Plan} {roots : List NodeId} {deep : Prop} {around : List NodeId} {env : Env}
  {g : Generator} {id : NodeId}

/-! ### Nodes that stand apart -/

theorem declareVariable_evaluation {value : NodeId} {readOnly : Bool} {name : String}
    {type : ValueType} {init : Expr} :
    (Law.evaluation p roots deep [] around).Keeps env
      (declareVariable id value readOnly name type init) := by
  refine .bind (.mutability value readOnly) fun m => .bind (.recordKey id) fun key => ?_
  refine .bind ?_ fun _ => ?_
  · exact fun s _ => evaluation_rel rfl rfl fun h => h
  · exact fun s _ => evaluation_rel rfl rfl fun h => h

theorem enterVarying_evaluation (hp : ¬deep → p.LayoutsFounded) {source : NodeId}
    {name : Option String} {interpolation : Interpolation} {sampling : Option Sampling}
    (hn : p.node id = .ok (.varying source name interpolation sampling))
    (ht : (Law.evaluation p roots deep [] around).Keeps env (typeOf source)) :
    (Law.evaluation p roots deep [] around).Keeps env
      (enterVarying id source name interpolation sampling) := by
  refine .bind .stage fun t => .when (fun _ => .fail rfl) fun _ => .read ?_
  refine .when (fun _ => .fail rfl) fun _ => .bind ht fun type => ?_
  refine .when (fun _ => .fail rfl) fun _ => .bind ?_ fun emitted => ?_
  · exact (evaluation_tabular hp).keeps fun _ => claimVarying_tables name
  refine .bind (fun s _ => ⟨.refl _, fun hs => ?_⟩) fun _ => .pure _
  exact ⟨hs.frames, hs.varyings.put hn, hs.functions⟩

/-- The entry of a varying has the source that the node of the varying refers to. -/
theorem registerVarying_evaluation (hp : ¬deep → p.LayoutsFounded) {source : NodeId}
    {name : Option String} {interpolation : Interpolation} {sampling : Option Sampling}
    (hn : p.node id = .ok (.varying source name interpolation sampling))
    (ht : (Law.evaluation p roots deep [] around).Keeps env (typeOf source)) {s : BuildState}
    (hs : (Law.evaluation p roots deep [] around).inv env s) :
    Meets (registerVarying id source name interpolation sampling) env s
      (Law.evaluation p roots deep [] around).ends fun v s' =>
        (Law.evaluation p roots deep [] around).rel [] s s' ∧ v.source = source := by
  unfold registerVarying
  rw [meets_bind, meets_get]
  cases hv : s.varyings.get? id with
  | some v =>
    obtain ⟨-, hreg, -⟩ := hs
    obtain ⟨_, _, _, hn'⟩ := hreg.varyings id v hv
    cases hn.symm.trans hn'
    exact ⟨Law.refl _ s, rfl⟩
  | none =>
    have keeps := enterVarying_evaluation hp hn ht s hs
    exact keeps.and (enterVarying_source id source name interpolation sampling env s)

theorem locateVarying_evaluation {v : VaryingEntry} {name : Option String}
    {interpolation : Interpolation} {sampling : Option Sampling}
    (hn : p.node id = .ok (.varying v.source name interpolation sampling)) :
    (Law.evaluation p roots deep [] around).Keeps env (locateVarying id v) := by
  intro s _
  unfold locateVarying
  rw [meets_modify]
  split
  · exact Law.refl _ s
  · exact ⟨.refl _, fun hs => ⟨hs.frames, hs.varyings.put hn, hs.functions⟩⟩

theorem inStage_evaluation {step : Build Unit} {t : Stage}
    (h : (Law.evaluation p roots deep [] around).Keeps (within env t) step) :
    (Law.evaluation p roots deep [] around).Keeps env (inStage t step) := by
  refine h.inStage (fun s hs => ?_) (fun _ _ hr => hr) fun _ he => he
  unfold within
  split
  · exact hs
  · exact hs

/-- The code of a node is generated from that of the nodes that it is evaluated from. -/
theorem generateNode_evaluation {n : Node} (hp : ¬deep → p.LayoutsFounded)
    (hn : p.node id = .ok n) (ht : (Law.evaluation p roots deep [] around).Keeps env (typeOf id))
    (h : ∀ env' c outer, (∀ m, p.resolve c = .ok m → p.Step ⟨id, around⟩ ⟨m, outer⟩) →
      (Law.evaluation p roots deep [] outer).Serves env' g c) :
    (Law.evaluation p roots deep [] around).Keeps env (generateNode g id n) := by
  have below : n.isLexical = false → ∀ c ∈ n.children, ∀ env',
      (Law.evaluation p roots deep [] around).Serves env' g c :=
    fun hl c hc env' => h env' c around fun m hm => .child hn hl hc hm
  have hL : (Law.evaluation p roots deep [] around).Closed := evaluation_closed hp
  by_cases hs : n.isSpecial
  · cases n with
    | varying source name interpolation sampling =>
      have serves := below rfl source (.head _)
      have tabular : (Law.evaluation p roots deep [] around).Tabular deep := evaluation_tabular hp
      have assign := Keeps.assignVarying (fun _ _ => .add hL.toStraight (.assign trivial) rfl) (tabular.mark id)
        (serves (within env .vertex))
      refine .map _ (.buildVarying assign (tabular.mark id) inStage_evaluation (fun _ _ h => h)
        (fun _ _ _ _ h => h) ?_ ?_)
      · exact fun s hs => registerVarying_evaluation hp hn (serves env).type' hs
      · exact fun v s hs hv => locateVarying_evaluation (hv ▸ hn) s hs
    | var value name readOnly =>
      refine .map _ (.buildVariable hL.toStraight ht (below rfl value (.head _) env) fun name type init _ => ?_)
      exact declareVariable_evaluation
    | context inner values =>
      refine inContext_evaluation hn fun frame => ?_
      exact (h _ inner (id :: around) fun m hm => .inside hn hm).emit'
    | contextValue key fallback =>
      exact withContextValue_evaluation hn fun c outer frames hc => (h _ c outer hc).emit'
    | cache inner shares =>
      refine .bind (.read fun s _ => evaluation_rel rfl rfl fun h => h) fun scope => ?_
      exact fun s hs => (below rfl inner (.head _) { env with scope := scope }).emit' s hs
    | _ => cases hs
  · refine fun s hs' => Keeps.generateNode hL (hs'.1 ▸ hn) (by simpa using hs) ht ?_ s hs'
    intro c hc
    exact below (NodeOf.isLexical_of_isSpecial (by simpa using hs)) c hc env

/-! ### The recursion -/

/-- What evaluations must be like for generation to end. -/
structure Ends (p : Plan) (roots : List NodeId) : Prop where
  founded : p.LayoutsFounded
  short : p.Short roots p.bound
  recurs : ∀ σ, p.Reaches roots σ → ¬TransGen p.Step σ σ

/-- The recursion has room for a node that is met after the situations `cs`. -/
structure Ready (p : Plan) (roots : List NodeId) (deep : Prop) (room : Nat)
    (cs : List Situation) (around : List NodeId) (id : NodeId) : Prop where
  room : ¬deep → cs.length ≤ p.bound ∧ 2 * p.bound < room + 2 * cs.length
  nodup : ¬deep → cs.Nodup
  arrives : ∀ m, p.resolve id = .ok m → Arrives p roots cs ⟨m, around⟩

variable {room room' : Nat} {cs : List Situation} {m : NodeId} {n : Node}

/-- There is room for the node that is built in the place of another. -/
theorem Ready.own (h : Ready p roots deep room cs around id) (hm : p.resolve id = .ok m) :
    Ready p roots deep room cs around m := by
  refine ⟨h.room, h.nodup, fun m' hm' => h.arrives m' ?_⟩
  rw [Plan.resolve_of_resolve hm] at hm'
  cases hm'
  exact hm

/-- There is room for the nodes that a node is evaluated from. -/
theorem Ready.step {c c' : NodeId} {outer : List NodeId}
    (h : Ready p roots deep room cs around id) (hb : ¬deep → Ends p roots)
    (hm : p.resolve id = .ok m) (hn : p.node m = .ok n)
    (hs : ∀ m', p.resolve c = .ok m' → p.Step ⟨m, around⟩ ⟨m', outer⟩)
    (hc : c' = c ∨ p.resolve c = .ok c') (hr : room ≤ room' + 2) :
    Ready p roots deep room' (⟨m, around⟩ :: cs) outer c' := by
  have ha := h.arrives m hm
  -- evaluation never comes back, so this situation is not one of those before
  have nodup : ¬deep → (⟨m, around⟩ :: cs : List Situation).Nodup := by
    refine fun hd => List.nodup_cons.2 ⟨fun hσ => ?_, h.nodup hd⟩
    exact (hb hd).recurs _ ha.reached (ha.leads.transGen hσ)
  -- a level for the place and one for the code: two for each situation are enough
  refine ⟨fun hd => ?_, nodup, fun m' hm' => ha.step (hs m' ?_)⟩
  · have short := (hb hd).short cs ⟨m, around⟩ ⟨n, hn⟩ ha.leads ?_ (nodup hd)
    · have := h.room hd
      rw [List.length_cons] at short ⊢
      omega
    · intro τ hτ
      rcases List.mem_cons.1 hτ with rfl | hτ
      · exact ha.reached
      · exact ha.before τ hτ
  · rcases hc with rfl | hc
    · exact hm'
    · rw [Plan.resolve_of_resolve hc] at hm'
      cases hm'
      exact hc

/-- The steps of a generator keep to evaluation where there is room; a place takes a level more
than a value. -/
structure Obeys (p : Plan) (roots : List NodeId) (deep : Prop) (room : Nat) (g : Generator) :
    Prop where
  emit : ∀ {env cs around id}, Ready p roots deep room cs around id →
    (Law.evaluation p roots deep [] around).Keeps env (g.emit id)
  place : ∀ {env cs around id}, Ready p roots deep (room - 1) cs around id →
    (Law.evaluation p roots deep [] around).Keeps env (g.place id)

/-- The type of a node that can be met. -/
theorem Ready.type (h : Ready p roots deep room cs around id) (hb : ¬deep → Ends p roots) :
    (Law.evaluation p roots deep [] around).Keeps env (typeOf id) :=
  typeOf_evaluation (fun hd => (hb hd).founded) (fun hd => (hb hd).short)
    fun m hm => (h.arrives m hm).reached

/-- The nodes that a node is evaluated from keep to evaluation. -/
theorem Obeys.serves (hg : Obeys p roots deep room g) (hb : ¬deep → Ends p roots)
    (h : Ready p roots deep room' cs around id) (hr : room' ≤ room + 1)
    (hm : p.resolve id = .ok m) (hn : p.node m = .ok n) {c : NodeId} {outer : List NodeId}
    (hs : ∀ m', p.resolve c = .ok m' → p.Step ⟨m, around⟩ ⟨m', outer⟩) :
    (Law.evaluation p roots deep [] outer).Serves env g c := by
  refine ⟨fun l c' hc' s hi => ?_, fun l => ?_, fun l c' hc' s hi => ?_⟩
  · exact hg.emit (h.step hb hm hn hs (hi.1 ▸ hc') (by omega)) s hi
  · exact .ofKeeps (hg.place (h.step hb hm hn hs (.inl rfl) (by omega))) fun _ => trivial
  · have ready : Ready p roots deep room (⟨m, around⟩ :: cs) outer c' :=
      h.step hb hm hn hs (hi.1 ▸ hc') (by omega)
    exact ready.type hb s hi

theorem recordVisit_evaluation (s : BuildState) (code : Option Expr) :
    (Law.evaluation p roots deep [] around).Keeps env (recordVisit s id code) :=
  fun _ _ => evaluation_rel rfl rfl fun h => h

/-- Generation keeps to evaluation. -/
theorem generator_evaluation (hb : ¬deep → Ends p roots) (fuel : Nat) :
    Obeys p roots deep fuel (generator fuel) := by
  induction fuel with
  | zero =>
    refine ⟨fun h s _ => ?_, fun h s _ => ?_⟩
    · by_contra hd
      have := h.room hd
      omega
    · by_contra hd
      have := h.room hd
      omega
  | succ fuel ih =>
    refine ⟨fun {env cs around id} h => ?_, fun {env cs around id} h => ?_⟩
    · rintro s ⟨rfl, hs⟩
      refine Keeps.resolve (fun m hm => .get fun before => .bind ?_ fun code => ?_) s ⟨rfl, hs⟩
      · refine .located (.node fun n hn => ?_)
        refine generateNode_evaluation (fun hd => (hb hd).founded) hn ((h.own hm).type hb) ?_
        exact fun env' c outer hc => ih.serves hb h (by omega) hm hn hc
      · exact .bind (recordVisit_evaluation before code) fun _ => .pure _
    · rintro s ⟨rfl, hs⟩
      refine Keeps.resolve (fun m hm => .located (.node fun n hn => ?_)) s ⟨rfl, hs⟩
      have own := Ready.own h hm
      refine .bind (own.type hb) fun type => .bind ?_ fun e => .pure _
      by_cases hl : n.isLexical
      · cases n <;> first | exact .fail rfl | cases hl
      · refine .placeOf (evaluation_closed fun hd => (hb hd).founded).toPlain (ih.emit own) fun c hc => ?_
        exact ih.serves hb h (by omega) hm hn fun m' hm' => .child hn (by simpa using hl) hc hm'

theorem Ready.mono (h : Ready p roots deep room cs around id) (hr : room ≤ room') :
    Ready p roots deep room' cs around id := by
  refine ⟨fun hd => ?_, h.nodup, h.arrives⟩
  have := h.room hd
  omega

/-- A node that there is room for keeps to evaluation. -/
theorem Obeys.serves_of_ready (hg : Obeys p roots deep room g) (hb : ¬deep → Ends p roots)
    (h : Ready p roots deep (room - 1) cs around id) :
    (Law.evaluation p roots deep [] around).Serves env g id := by
  have own : ∀ {m}, m = id ∨ p.resolve id = .ok m → Ready p roots deep (room - 1) cs around m := by
    rintro m (rfl | hm)
    · exact h
    · exact h.own hm
  refine ⟨fun l m hm s hi => ?_, fun l => .ofKeeps (hg.place h) fun _ => trivial,
    fun l m hm s hi => ?_⟩
  · exact hg.emit ((own (hi.1 ▸ hm)).mono (Nat.sub_le _ _)) s hi
  · exact (own (hi.1 ▸ hm)).type hb s hi

/-- Generating the program of a stage keeps to evaluation. -/
theorem generateStage_evaluation (hb : ¬deep → Ends p roots) {root : NodeId}
    (hr : root ∈ roots) : (Law.evaluation p roots deep [] []).Keeps env (generateStage root) := by
  have ready : Ready p roots deep (Nat.pow 2 (p.graph.size + 2) - 1) [] [] root := by
    refine ⟨fun _ => ⟨Nat.zero_le _, ?_⟩, fun _ => List.nodup_nil, fun m hm => ?_⟩
    · have := Nat.two_pow_pos p.graph.size
      have : Nat.pow 2 (p.graph.size + 2) = 2 ^ p.graph.size * 4 := Nat.pow_add 2 _ 2
      rw [Plan.bound, List.length_nil]
      omega
    · exact ⟨.nil, .root hr hm, fun τ hτ => absurd hτ List.not_mem_nil⟩
  rintro s ⟨rfl, hs⟩
  have serves : (Law.evaluation env.plan roots deep [] []).Serves env
      (generator (Nat.pow 2 (env.plan.graph.size + 2))) root :=
    (generator_evaluation hb _).serves_of_ready hb ready
  exact Keeps.generateStage (evaluation_tabular fun hd => (hb hd).founded).finish serves s ⟨rfl, hs⟩

end Build

/-! ## Analysis -/

open Relation

namespace Plan

variable {p : Plan} {roots : List NodeId}

/-- Some evaluation of `a` comes from `b`. -/
def Precedes (p : Plan) (roots : List NodeId) (b a : NodeId) : Prop :=
  ∃ σ τ, p.Reaches roots σ ∧ p.Step σ τ ∧ σ.node = a ∧ τ.node = b

/-- Every evaluation of the node ends. -/
def Ending (p : Plan) (roots : List NodeId) : NodeId → Prop := Acc (p.Precedes roots)

/-- Evaluation ends where it is evaluated from nodes where it ends. -/
theorem Steady.ending (hp : p.Steady roots) {σ : Situation} (hσ : p.Reaches roots σ)
    (h : ∀ τ, p.Step σ τ → p.Ending roots τ.node) : p.Ending roots σ.node := by
  refine ⟨_, fun b hb => ?_⟩
  obtain ⟨σ', τ', hσ', hs, hnode, rfl⟩ := hb
  obtain ⟨τ, hs, hτ⟩ := hp σ' σ τ' hσ' hσ hnode hs
  exact hτ ▸ h τ hs

theorem Ending.of_transGen {σ τ : Situation} (h : p.Ending roots σ.node)
    (hσ : p.Reaches roots σ) (hg : ReflTransGen p.Step σ τ) : p.Ending roots τ.node := by
  induction hg with
  | refl => exact h
  | tail hg hs ih => exact ih.inv ⟨_, _, hσ.trans hg, hs, rfl, rfl⟩

/-- Evaluation that ends does not come back. -/
theorem Ending.not_recurs {σ : Situation} (h : p.Ending roots σ.node) (hσ : p.Reaches roots σ) :
    ¬TransGen p.Step σ σ := by
  have chain : ∀ τ, TransGen p.Step σ τ → TransGen (p.Precedes roots) τ.node σ.node := by
    intro τ hg
    induction hg with
    | single hs => exact .single ⟨_, _, hσ, hs, rfl, rfl⟩
    | tail hg hs ih => exact .head ⟨_, _, hσ.trans hg.to_reflTransGen, hs, rfl, rfl⟩ ih
  -- an accessible node is not before itself
  have irrefl : ∀ a, Acc (TransGen (p.Precedes roots)) a → ¬TransGen (p.Precedes roots) a a := by
    intro a ha
    induction ha with
    | intro a _ ih => exact fun haa => ih a haa haa
  exact fun hg => irrefl _ h.transGen (chain σ hg)

end Plan

/-- What analysis keeps to at a node under the context nodes `around`; the nodes of its path are
those of the situations `ts`. -/
def Law.survey (p : Plan) (roots : List NodeId) (deep : Prop) (ts : List Situation)
    (around : List NodeId) : Law where
  inv env s := (Law.evaluation p roots deep [] around).inv env s ∧
    env.path = ts.map Situation.node ∧
    (p.Steady roots → ∀ k, s.cache.Counted k → k.node ∈ env.path ∨ p.Ending roots k.node)
  rel ss s s' := (Law.evaluation p roots deep [] around).rel ss s s' ∧
    (p.Steady roots → ∀ k, s'.cache.Counted k → s.cache.Counted k ∨ p.Ending roots k.node)
  ends := (Law.evaluation p roots deep [] around).ends
  refl s := ⟨Law.refl _ s, fun _ _ => .inl⟩
  trans h h' := by
    refine ⟨Law.trans _ h.1 h'.1, fun hp k hk => ?_⟩
    rcases h'.2 hp k hk with hk | hk
    · exact h.2 hp k hk
    · exact .inr hk
  mono hi hr := by
    refine ⟨Law.mono _ hi.1 hr.1, hi.2.1, fun hp k hk => ?_⟩
    rcases hr.2 hp k hk with hk | hk
    · exact hi.2.2 hp k hk
    · exact .inr hk
  loops _ hi := hi
  ordinary := Law.ordinary _
  located := Law.located _

namespace Build

open Law

variable {p : Plan} {roots : List NodeId} {deep : Prop} {ts : List Situation}
  {around : List NodeId} {env : Env}

/-- What keeps to evaluation and leaves the cache alone. -/
theorem survey_rel {ss : List Statement} {s s' : BuildState}
    (h : (Law.evaluation p roots deep [] around).rel ss s s') (hc : s'.cache = s.cache) :
    (Law.survey p roots deep ts around).rel ss s s' :=
  ⟨h, fun _ _ hk => .inl (hc ▸ hk)⟩

theorem survey_tabular (hp : ¬deep → p.LayoutsFounded) :
    (Law.survey p roots deep ts around).Tabular deep where
  exhausted h := h
  founded hi := (evaluation_tabular hp).founded hi.1
  rel hi hcore := survey_rel ((evaluation_tabular hp).rel hi.1 hcore) (core_cache hcore)

theorem registerFunction_survey (hp : ¬deep → p.LayoutsFounded) (f : FunctionId) :
    (Law.survey p roots deep ts around).Keeps env (registerFunction f) := by
  intro s hs
  have closed : (Law.evaluation p roots deep [] around).Closed := evaluation_closed hp
  have keeps := closed.registerFunction f s hs.1
  refine (keeps.and (registerFunction_still f s trivial)).imp fun _ s' hr => ?_
  exact survey_rel hr.1 (congrArg Still.cache hr.2)

/-- Evaluation ends at the nodes that are built in the place of `id`. -/
def Secured (p : Plan) (roots : List NodeId) (id : NodeId) : Prop :=
  p.Steady roots → ∀ m, p.resolve id = .ok m → p.Ending roots m

variable {analyze : NodeId → Build Unit} {id : NodeId} {n : Node}

/-- The varying of a node is entered, and nothing is counted. -/
theorem registerVarying_survey (hp : ¬deep → p.LayoutsFounded)
    (hb : ¬deep → p.Short roots p.bound) {source : NodeId} {name : Option String}
    {interpolation : Interpolation} {sampling : Option Sampling}
    (hn : p.node id = .ok (.varying source name interpolation sampling))
    (hr : p.Reaches roots ⟨id, around⟩) :
    (Law.survey p roots deep ts around).Keeps env
      (registerVarying id source name interpolation sampling) := by
  intro s hs
  have typed : (Law.evaluation p roots deep [] around).Keeps env (typeOf source) :=
    typeOf_evaluation hp hb fun m hm => hr.step (.child hn rfl (.head _) hm)
  have keeps := registerVarying_evaluation hp hn typed hs.1
  refine (keeps.and (registerVarying_still hn hs.1.2.1.varyings)).imp fun v s' hr' => ?_
  exact survey_rel hr'.1.1 (congrArg Still.cache hr'.2.1.1)

theorem survey_within {s : BuildState} (t : Stage)
    (hs : (Law.survey p roots deep ts around).inv env s) :
    (Law.survey p roots deep ts around).inv (within env t) s := by
  unfold within
  split
  · exact hs
  · exact hs

/-- Below a node analysis follows evaluation. -/
theorem analyzeNode_survey (hp : ¬deep → p.LayoutsFounded) (hb : ¬deep → p.Short roots p.bound)
    (hn : p.node id = .ok n) (hr : p.Reaches roots ⟨id, around⟩)
    (h : ∀ env' c outer, (∀ m, p.resolve c = .ok m → p.Step ⟨id, around⟩ ⟨m, outer⟩) →
      (Law.survey p roots deep ts outer).Secures env' (analyze c) fun _ => Secured p roots c) :
    (Law.survey p roots deep ts around).Secures env (analyzeNode analyze id n) fun _ =>
      p.Steady roots → p.Ending roots id := by
  have below : n.isLexical = false → ∀ c ∈ n.children, ∀ env',
      (Law.survey p roots deep ts around).Secures env' (analyze c) fun _ => Secured p roots c :=
    fun hl c hc env' => h env' c around fun m hm => .child hn hl hc hm
  have children : n.isLexical = false → (∀ c ∈ n.children, Secured p roots c) →
      p.Steady roots → p.Ending roots id := by
    refine fun hl hc hp => hp.ending hr fun τ hs => ?_
    obtain ⟨c, hmem, m, hm, rfl⟩ := (Plan.step_of_children hn hl).1 hs
    exact hc c hmem hp m hm
  have single : ∀ {c outer}, Secured p roots c →
      (∀ τ, p.Step ⟨id, around⟩ τ ↔ ∃ m, p.resolve c = .ok m ∧ τ = ⟨m, outer⟩) →
      p.Steady roots → p.Ending roots id := by
    refine fun hc hs hp => hp.ending hr fun τ hτ => ?_
    obtain ⟨m, hm, rfl⟩ := (hs τ).1 hτ
    exact hc hp m hm
  rintro s hs
  by_cases hshift : n.shifts
  · cases n with
    | varying source name interpolation sampling =>
      unfold analyzeNode
      rw [meets_bind, meets_discard]
      refine (registerVarying_survey hp hb hn hr s hs).imp fun _ s' hr' => ?_
      rw [meets_inStage]
      have inv := survey_within .vertex (Law.mono _ hs hr')
      refine (below rfl source (.head _) _ s' inv).imp fun _ s'' hq => ?_
      refine ⟨Law.trans _ hr' hq.1, children rfl fun c hc => ?_⟩
      cases List.mem_singleton.1 hc
      exact hq.2
    | cache inner shares =>
      unfold analyzeNode
      rw [meets_bind, meets_cacheScope, meets_inScope]
      have grown : (Law.survey p roots deep ts around).rel [] s
          { s with cache := (s.cache.scopeFor env.scope id shares).2 } :=
        ⟨evaluation_rel rfl rfl fun ht => ht, fun _ k hk =>
          .inl ((NodeCache.counted_of_records NodeCache.records_scopeFor).1 hk)⟩
      have inv := Law.mono _ hs grown
      have walk := below rfl inner (.head _)
        { env with scope := (s.cache.scopeFor env.scope id shares).1 } _ inv
      refine walk.imp fun _ s' hq => ?_
      refine ⟨Law.trans _ grown hq.1, children rfl fun c hc => ?_⟩
      cases List.mem_singleton.1 hc
      exact hq.2
    | context inner values =>
      show Meets (inContext id values (analyze inner)) env s _ _
      rw [meets_inContext]
      obtain ⟨grown, inv⟩ := evaluation_inside hn hs.1 rfl
      have step : ∀ τ, p.Step ⟨id, around⟩ τ ↔
          ∃ m, p.resolve inner = .ok m ∧ τ = ⟨m, id :: around⟩ := fun _ => Plan.step_of_context hn
      refine (h _ inner _ (fun m hm => (step _).2 ⟨m, hm, rfl⟩) _ ⟨inv, hs.2⟩).imp fun _ s' hq => ?_
      exact ⟨Law.trans _ (survey_rel grown rfl) hq.1, single hq.2 step⟩
    | contextValue key fallback =>
      refine meets_contextValue hn hs.1 (Law.ordinary _) fun c outer frames step inv => ?_
      refine (h _ c outer (fun m hm => (step _).2 ⟨m, hm, rfl⟩) s ⟨inv, hs.2⟩).imp fun _ s' hq => ?_
      exact ⟨hq.1, single hq.2 step⟩
    | _ => cases hshift
  · have hl : n.isLexical = false := by
      cases n <;> first | rfl | exact absurd rfl hshift
    have walk : (Law.survey p roots deep ts around).Secures env (analyzeNode analyze id n) fun _ =>
        ∀ c ∈ n.children, Secured p roots c :=
      .analyzeNode (survey_tabular hp) (fun f _ _ => registerFunction_survey hp f)
        (fun _ _ _ _ hq => hq) (by simpa using hshift) fun c hc => below hl c hc env
    exact (walk s hs).imp fun _ s' hq => ⟨hq.1, children hl hq.2⟩

/-- Analysis keeps to evaluation. Where nodes are steady, evaluation ends at all that it meets. -/
theorem analyzeIn_survey (hp : ¬deep → p.LayoutsFounded) (hb : ¬deep → p.Short roots p.bound)
    {fuel : Nat} (hf : ts.length + fuel = p.graph.size + 2)
    (hd : (ts.map Situation.node).Nodup) (hk : ∀ τ ∈ ts, ∃ n, p.node τ.node = .ok n)
    (ha : ∀ m, p.resolve id = .ok m → Arrives p roots ts ⟨m, around⟩) :
    (Law.survey p roots deep ts around).Secures env (analyzeIn fuel id) fun _ =>
      Secured p roots id := by
  induction fuel generalizing ts around env id with
  | zero =>
    -- the nodes of the path are different ones: the path is longer than the graph has nodes
    have := Plan.length_le_size (p := p) hd fun id hid => ?_
    · rw [List.length_map] at this
      omega
    · obtain ⟨τ, hτ, rfl⟩ := List.mem_map.1 hid
      exact hk τ hτ
  | succ fuel ih =>
    rintro s ⟨hi, hpath, hcount⟩
    obtain rfl := hi.1
    refine meets_analyzeIn (L := Law.survey _ roots deep ts around) ?_ ?_ ?_
    -- below itself: the situation on the path leads to this one
    · intro m hm hmem
      rw [hpath] at hmem
      obtain ⟨τ, hτ, rfl⟩ := List.mem_map.1 hmem
      exact ⟨τ, ⟨τ.node, around⟩, (ha _ hm).before τ hτ, (ha _ hm).leads.transGen hτ, rfl, rfl⟩
    -- again: the node was counted before and is not on the path, so evaluation ends there
    · intro m hm hmem hc
      refine ⟨⟨evaluation_rel rfl rfl fun ht => ht, fun _ k hk => ?_⟩, fun hsteady m' hm' => ?_⟩
      · rcases counted_counting.1 hk with rfl | hk
        · exact .inl hc
        · exact .inl hk
      · cases hm.symm.trans hm'
        exact (hcount hsteady _ hc).resolve_left hmem
    -- for the first time: on the way down the node is on the path, after that evaluation ends there
    · intro m n hm hmem hc hn
      have arrives := ha m hm
      have hd' : ((⟨m, around⟩ :: ts).map Situation.node).Nodup :=
        List.nodup_cons.2 ⟨hpath ▸ hmem, hd⟩
      have hk' : ∀ τ ∈ (⟨m, around⟩ :: ts : List Situation), ∃ n, env.plan.node τ.node = .ok n := by
        intro τ hτ
        rcases List.mem_cons.1 hτ with rfl | hτ
        · exact ⟨n, hn⟩
        · exact hk τ hτ
      have counted : (Law.evaluation env.plan roots deep [] around).rel [] s (s.counting env m) :=
        evaluation_rel rfl rfl fun ht => ht
      have inv : (Law.survey env.plan roots deep (⟨m, around⟩ :: ts) around).inv
          { env with path := m :: env.path } (s.counting env m) := by
        refine ⟨Law.mono _ hi counted, congrArg (m :: ·) hpath, fun hsteady k hk => ?_⟩
        rcases counted_counting.1 hk with rfl | hk
        · exact .inl (.head _)
        · exact (hcount hsteady k hk).imp_left (.tail _)
      have deeper : (⟨m, around⟩ :: ts).length + fuel = env.plan.graph.size + 2 := by
        rw [List.length_cons]
        omega
      have walk : (Law.survey env.plan roots deep (⟨m, around⟩ :: ts) around).Secures
          { env with path := m :: env.path } (analyzeNode (analyzeIn fuel) m n) fun _ =>
            env.plan.Steady roots → env.plan.Ending roots m :=
        analyzeNode_survey hp hb hn arrives.reached fun env' c outer hstep =>
          ih deeper hd' hk' fun m' hm' => arrives.step (hstep m' hm')
      refine (walk _ inv).imp fun _ s' hq => ?_
      refine ⟨⟨Law.trans _ counted hq.1.1, fun hsteady k hk => ?_⟩, fun hsteady m' hm' => ?_⟩
      · rcases hq.1.2 hsteady k hk with hk | hk
        · rcases counted_counting.1 hk with rfl | hk
          · exact .inr (hq.2 hsteady)
          · exact .inl hk
        · exact .inr hk
      · cases hm.symm.trans hm'
        exact hq.2 hsteady

end Build

end ShaderGraph
