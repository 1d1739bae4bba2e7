import ShaderGraph.Proofs.Evaluation
import ShaderGraph.Proofs.Typing

/-!
# Reports of cycles

`Law.evaluation` ties a build to evaluation: every step is taken under the frames of some context
nodes, the nodes whose types are being found are situations that lead to the current one, and a
cycle is reported only where evaluation comes back (`Plan.Justified`). Finding types
(`typeOf_evaluation`), generation (`generator_evaluation`) and analysis (`analyze_evaluation`) keep
to it. They do not get too deep where evaluations are short.
-/

namespace ShaderGraph

open Relation

/-- What holds of the state throughout a build. -/
structure BuildState.Regular (p : Plan) (s : BuildState) : Prop where
  frames : s.frames.Regular
  varyings : VaryingsFrom p s.varyings
  functions : IncludesFirst p.graph s.functions

/-- Evaluation comes back where a cycle is reported. -/
def Plan.Justified (p : Plan) (roots : List NodeId) : Cause → Prop
  | .graph (.typeCycle _) => ∃ σ, p.Reaches roots σ ∧ TransGen p.Step σ σ
  | .graph (.cycle id) =>
    ∃ σ τ, p.Reaches roots σ ∧ TransGen p.Step σ τ ∧ σ.node = id ∧ τ.node = id
  | _ => True

theorem Plan.justified_of_ordinary {p : Plan} {roots : List NodeId} {c : Cause}
    (h : c.isCycle = false) : p.Justified roots c := by
  unfold Plan.Justified
  split
  · cases h
  · cases h
  · trivial

/-- The keys of types are those of some situations. -/
def Keyed (t : FrameTable) : List (NodeId × FrameId) → List Situation → Prop :=
  List.Forall₂ fun key τ => key.1 = τ.node ∧ t.number? τ.around = some key.2

theorem Keyed.mono {t t' : FrameTable} {keys : List (NodeId × FrameId)} {ts : List Situation}
    (he : t.Extends t') (h : Keyed t keys ts) : Keyed t' keys ts :=
  h.imp fun _ _ hk => ⟨hk.1, FrameTable.number?_of_extends he hk.2⟩

/-- What a build keeps to at a node under the context nodes `around`, while the types at the
situations `ts` are being found. -/
def Law.evaluation (p : Plan) (roots : List NodeId) (deep : Prop) (ts : List Situation)
    (around : List NodeId) : Law where
  inv env s := env.plan = p ∧ s.Regular p ∧ Framed p s.frames env.frames around ∧
    Keyed s.frames env.typing ts
  rel _ s s' := s.frames.Extends s'.frames ∧ (s.Regular p → s'.Regular p)
  ends
    | .refused e => p.Justified roots e.cause
    | .exhausted => deep
  refl s := ⟨.refl _, id⟩
  trans h h' := ⟨h.1.trans h'.1, fun hs => h'.2 (h.2 hs)⟩
  mono hi hr := ⟨hi.1, hr.2 hi.2.1, hi.2.2.1.mono hr.1, hi.2.2.2.mono hr.1⟩
  loops _ hi := hi
  ordinary h := Plan.justified_of_ordinary h
  located {_ _ f} h := by
    cases f
    · exact h
    · exact h

namespace Build

variable {p : Plan} {roots : List NodeId} {deep : Prop} {ts : List Situation}
  {around : List NodeId} {env : Env}

open Law

/-- A change that leaves contexts, varyings and functions alone. -/
theorem evaluation_rel {ss : List Statement} {s s' : BuildState} (hf : s'.frames = s.frames)
    (hv : s'.varyings = s.varyings) (hr : IncludesFirst p.graph s.functions →
      IncludesFirst p.graph s'.functions) :
    (Law.evaluation p roots deep ts around).rel ss s s' := by
  refine ⟨hf ▸ .refl _, fun h => ⟨hf ▸ h.frames, ?_, hr h.functions⟩⟩
  rw [hv]
  exact h.varyings

theorem evaluation_tabular (hp : ¬deep → p.LayoutsFounded) :
    (Law.evaluation p roots deep ts around).Tabular deep where
  exhausted h := h
  founded hi hd := hi.1 ▸ hp hd
  rel _ hcore := evaluation_rel (core_frames hcore) (core_varyings hcore) fun ht =>
    (core_functions hcore).symm ▸ ht

/-- Steps that read functions keep to evaluation. -/
theorem evaluation_ofReads {α : Type} {step : Build α} (h : ∀ s, env.plan = p →
      IncludesFirst env.plan.graph s.functions →
      Meets step env s (Law.tables deep).ends fun _ s' => Reads env.plan.graph [] s s') :
    (Law.evaluation p roots deep ts around).Keeps env step := by
  intro s hs
  obtain ⟨rfl, hr, -⟩ := hs
  refine (h s rfl hr.functions).mono ?_ ?_
  · intro f hf
    cases f with
    | refused e => exact Plan.justified_of_ordinary hf
    | exhausted => exact hf
  · intro a s' hreads
    exact evaluation_rel (congrArg Core.frames hreads.core) (congrArg Core.varyings hreads.core)
      fun _ => hreads.table

theorem evaluation_closed (hp : ¬deep → p.LayoutsFounded) :
    (Law.evaluation p roots deep ts around).Closed := by
  have blockless : (Law.evaluation p roots deep ts around).Blockless :=
    ⟨fun _ _ _ => evaluation_rel rfl rfl id, id⟩
  refine (evaluation_tabular hp).closed ?_ ?_ ?_ (fun _ _ => blockless.add) blockless.inBlock
  · intro env f
    exact evaluation_ofReads fun s _ ht => (registerFunction_reads f ht).imp fun _ _ h => h.1
  · intro env f
    exact evaluation_ofReads fun s he ht => useFunction_reads (he ▸ hp) f ht
  · intro env id n name _ _ s _
    exact evaluation_rel rfl rfl fun ht => ht

/-! ### Going on to other nodes -/

/-- A situation that evaluation comes to from `ts`. -/
structure Arrives (p : Plan) (roots : List NodeId) (ts : List Situation) (σ : Situation) :
    Prop where
  leads : p.Leads ts σ
  reached : p.Reaches roots σ
  before : ∀ τ ∈ ts, p.Reaches roots τ

theorem Arrives.step {σ τ : Situation} (h : Arrives p roots ts σ) (hs : p.Step σ τ) :
    Arrives p roots (σ :: ts) τ where
  leads := .cons h.leads hs
  reached := h.reached.step hs
  before τ' hτ := by
    rcases List.mem_cons.1 hτ with rfl | hτ
    · exact h.reached
    · exact h.before τ' hτ

/-- What a context node refers to is evaluated inside it. -/
theorem evaluation_inside {id inner : NodeId} {values : List (String × NodeId)}
    (hn : p.node id = .ok (.context inner values)) {s : BuildState}
    (hs : (Law.evaluation p roots deep ts around).inv env s) {t : FrameId × FrameTable}
    (ht : s.frames.extend (Frame.current env.frames) id = t) :
    (Law.evaluation p roots deep ts around).rel [] s { s with frames := t.2 } ∧
      (Law.evaluation p roots deep ts (id :: around)).inv (inside env t.1 values)
        { s with frames := t.2 } := by
  obtain ⟨hplan, hreg, hframed, hkeyed⟩ := hs
  subst ht
  have grown : (Law.evaluation p roots deep ts around).rel [] s
      { s with frames := (s.frames.extend (Frame.current env.frames) id).2 } :=
    ⟨FrameTable.extends_extend, fun hs => ⟨hs.frames.extend, hs.varyings, hs.functions⟩⟩
  exact ⟨grown, hplan, grown.2 hreg, hframed.extend hn, hkeyed.mono grown.1⟩

theorem inContext_evaluation {α : Type} {id inner : NodeId} {values : List (String × NodeId)}
    {step : Build α} (hn : p.node id = .ok (.context inner values))
    (h : ∀ frame, (Law.evaluation p roots deep ts (id :: around)).Keeps
      (inside env frame values) step) :
    (Law.evaluation p roots deep ts around).Keeps env (inContext id values step) := by
  intro s hs
  rw [meets_inContext]
  obtain ⟨grown, inv⟩ := evaluation_inside hn hs rfl
  exact (h _ _ inv).imp fun _ _ hr => Law.trans _ grown hr

/-- A context value goes on at the value that is lent, or at its own. -/
theorem meets_contextValue {α : Type} {id : NodeId} {key : String} {fallback : Option NodeId}
    {step : NodeId → Build α} {s : BuildState} {ends : Failure → Prop}
    {post : α → BuildState → Prop} (hn : p.node id = .ok (.contextValue key fallback))
    (hs : (Law.evaluation p roots deep ts around).inv env s)
    (he : ∀ {e : BuildError}, e.cause.isCycle = false → ends (.refused e))
    (h : ∀ c outer frames,
      (∀ τ, p.Step ⟨id, around⟩ τ ↔ ∃ m, p.resolve c = .ok m ∧ τ = ⟨m, outer⟩) →
      (Law.evaluation p roots deep ts outer).inv { env with frames := frames } s →
      Meets (step c) { env with frames := frames } s ends post) :
    Meets (withContextValue key fallback step) env s ends post := by
  obtain ⟨hplan, hreg, hframed, hkeyed⟩ := hs
  rw [meets_withContextValue]
  rcases hframed.lookup? key with ⟨hf, hp⟩ | ⟨c, outer, outer', hf, hp, hframed'⟩
  · rw [hf]
    cases fallback with
    | none => exact he rfl
    | some c =>
      refine h c around env.frames (fun τ => Plan.step_of_fallback hn hp) ?_
      exact ⟨hplan, hreg, hframed, hkeyed⟩
  · rw [hf]
    exact h c outer' outer (fun τ => Plan.step_of_lent hn hp) ⟨hplan, hreg, hframed', hkeyed⟩

theorem withContextValue_evaluation {α : Type} {id : NodeId} {key : String}
    {fallback : Option NodeId} {step : NodeId → Build α}
    (hn : p.node id = .ok (.contextValue key fallback))
    (h : ∀ c outer frames, (∀ m, p.resolve c = .ok m → p.Step ⟨id, around⟩ ⟨m, outer⟩) →
      (Law.evaluation p roots deep ts outer).Keeps { env with frames := frames } (step c)) :
    (Law.evaluation p roots deep ts around).Keeps env (withContextValue key fallback step) :=
  fun s hs => meets_contextValue hn hs (Law.ordinary _) fun c outer frames hc hi =>
    h c outer frames (fun m hm => (hc _).2 ⟨m, hm, rfl⟩) s hi

/-! ### Types -/

/-- A key is there exactly when its situation is one of the list. -/
theorem Keyed.mem_iff {t : FrameTable} (ht : t.Regular) {keys : List (NodeId × FrameId)}
    (h : Keyed t keys ts) (σ : Situation) {frame : FrameId}
    (hσ : t.number? σ.around = some frame) : (σ.node, frame) ∈ keys ↔ σ ∈ ts := by
  induction h with
  | nil => exact ⟨fun h => (nomatch h), fun h => nomatch h⟩
  | @cons key τ keys ts hkey _ ih =>
    rw [List.mem_cons, List.mem_cons, ih]
    obtain ⟨n, f⟩ := key
    obtain ⟨n', a'⟩ := τ
    obtain ⟨m, a⟩ := σ
    obtain ⟨rfl, hnum⟩ := hkey
    refine or_congr (Iff.intro (fun h => ?_) fun h => ?_) Iff.rfl
    · cases h
      cases ht.number?_inj hσ hnum
      rfl
    · cases h
      cases hσ.symm.trans hnum
      rfl

/-- A situation whose type is being found is added to those of the list; it is not one of them,
or evaluation came back to it. -/
theorem whileTyping_evaluation {α : Type} {m : NodeId} {step : Build α}
    (ha : Arrives p roots ts ⟨m, around⟩)
    (h : ∀ keys, ⟨m, around⟩ ∉ ts →
      (Law.evaluation p roots deep (⟨m, around⟩ :: ts) around).Keeps
        { env with typing := keys } step) :
    (Law.evaluation p roots deep ts around).Keeps env
      (whileTyping (m, Frame.current env.frames) step) := by
  rintro s ⟨hplan, hreg, hframed, hkeyed⟩
  unfold whileTyping
  have hmem : (m, Frame.current env.frames) ∈ env.typing ↔ (⟨m, around⟩ : Situation) ∈ ts :=
    Keyed.mem_iff hreg.frames hkeyed ⟨m, around⟩ hframed.number?
  rw [meets_bind, meets_read, meets_ite, List.contains_iff_mem, hmem]
  -- the key is there exactly when the situation is; then evaluation came back to it
  refine ⟨fun hσ => ?_, fun hσ => ?_⟩
  · exact ⟨⟨m, around⟩, ha.reached, ha.leads.transGen hσ⟩
  · exact (h _ hσ).located s ⟨hplan, hreg, hframed, .cons ⟨rfl, hframed.number?⟩ hkeyed⟩

/-- The type of a node is found from those of the nodes that it is evaluated from. -/
theorem typeOfNode_evaluation {typeOf : NodeId → Build ValueType} {id : NodeId} {n : Node}
    (hp : ¬deep → p.LayoutsFounded) (hn : p.node id = .ok n)
    (h : ∀ c outer frames, (∀ m, p.resolve c = .ok m → p.Step ⟨id, around⟩ ⟨m, outer⟩) →
      (Law.evaluation p roots deep ts outer).Keeps { env with frames := frames } (typeOf c)) :
    (Law.evaluation p roots deep ts around).Keeps env (typeOfNode typeOf id n) := by
  by_cases hl : n.isLexical
  · cases n with
    | context inner values =>
      exact inContext_evaluation hn fun frame => h inner _ _ fun m hm => .inside hn hm
    | contextValue key fallback => exact withContextValue_evaluation hn h
    | _ => cases hl
  · refine .typeOfNode (fun f => (evaluation_closed hp).registerFunction f) ?_ ?_ fun c hc => ?_
    · rintro inner values rfl
      exact hl rfl
    · rintro key fallback rfl
      exact hl rfl
    · exact h c around env.frames fun m hm => .child hn (by simpa using hl) hc hm

/-- Finding the type of a node keeps to evaluation. Its situation, if it is met again, closes a
cycle of evaluation. -/
theorem typeOfIn_evaluation (hp : ¬deep → p.LayoutsFounded)
    (hb : ¬deep → p.Short roots p.bound) {fuel : Nat} {id : NodeId}
    (hf : ¬deep → ts.length ≤ p.bound ∧ p.bound < fuel + ts.length) (hn : ts.Nodup)
    (ha : ∀ m, p.resolve id = .ok m → Arrives p roots ts ⟨m, around⟩) :
    (Law.evaluation p roots deep ts around).Keeps env (typeOfIn fuel id) := by
  induction fuel generalizing ts around env id with
  | zero =>
    intro s _
    -- unless the recursion may get too deep, there is no room left for `ts`
    by_contra hd
    have := hf hd
    omega
  | succ fuel ih =>
    rw [typeOfIn]
    rintro s ⟨rfl, hs⟩
    refine Keeps.resolve (fun m hm => ?_) s ⟨rfl, hs⟩
    refine .read (.get fun s => ?_)
    split
    · exact .pure _
    refine .bind ?_ fun t => .bind (fun s _ => evaluation_rel rfl rfl fun h => h) fun _ => .pure _
    refine whileTyping_evaluation (ha m hm) fun keys hσ => .node fun n hn' => ?_
    refine typeOfNode_evaluation hp hn' fun c outer frames hs => ?_
    have hn'' : (⟨m, around⟩ :: ts).Nodup := List.nodup_cons.2 ⟨hσ, hn⟩
    refine ih (fun hd => ?_) hn'' fun m' hm' => (ha m hm).step (hs m' hm')
    -- the situations are different ones that lead to each other, so they are few
    have short := hb hd ts ⟨m, around⟩ ⟨n, hn'⟩ (ha m hm).leads ?_ hn''
    · have := hf hd
      rw [List.length_cons] at short ⊢
      omega
    · intro τ hτ
      rcases List.mem_cons.1 hτ with rfl | hτ
      · exact (ha m hm).reached
      · exact (ha m hm).before τ hτ

/-- Finding a type from scratch keeps to evaluation. -/
theorem typeOf_evaluation (hp : ¬deep → p.LayoutsFounded)
    (hb : ¬deep → p.Short roots p.bound) {id : NodeId}
    (hr : ∀ m, p.resolve id = .ok m → p.Reaches roots ⟨m, around⟩) :
    (Law.evaluation p roots deep [] around).Keeps env (typeOf id) := by
  rintro s ⟨rfl, hs⟩
  unfold typeOf depthBound
  rw [meets_bind, meets_bind, meets_read, meets_pure]
  refine typeOfIn_evaluation hp hb (fun _ => ?_) List.nodup_nil
    (fun m hm => ⟨.nil, hr m hm, fun τ hτ => nomatch hτ⟩) s ⟨rfl, hs⟩
  rw [List.length_nil, Plan.bound]
  have := Nat.two_pow_pos env.plan.graph.size
  have : Nat.pow 2 (env.plan.graph.size + 2) = 2 ^ env.plan.graph.size * 4 := Nat.pow_add 2 _ 2
  omega

end Build

end ShaderGraph
