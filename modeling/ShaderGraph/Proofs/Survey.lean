import ShaderGraph.Build.Run
import ShaderGraph.Proofs.Scopes
import ShaderGraph.Proofs.Walk

/-!
# Analysis, node by node

`meets_analyzeIn` tells apart the ways in which analysis may meet a node: below itself, again or
for the first time. Below most nodes it walks on to all that they refer to, under the same
contexts and in the same scope and stage (`Secures.analyzeNode`). `Secures.atRoots` puts together
what happens at the roots of a build.
-/

namespace ShaderGraph

/-- Whether what a node refers to is walked over under other contexts, in another scope or in
another stage. -/
def NodeOf.shifts {ρ μ : Type} : NodeOf ρ μ → Bool
  | varying .. | context .. | contextValue .. | cache .. => true
  | _ => false

/-- Whether a node is a varying. -/
def NodeOf.isVarying {ρ μ : Type} : NodeOf ρ μ → Bool
  | varying .. => true
  | _ => false

/-- The state after a reference to a node was counted. -/
def BuildState.counting (s : BuildState) (env : Env) (id : NodeId) : BuildState :=
  { s with cache := s.cache.count env.scope id (some env.stage) }

namespace Build

variable {L : Law} {env : Env} {s : BuildState} {fuel : Nat} {id : NodeId} {n : Node}

/-- Where the record of a node is kept. -/
def keyAt (env : Env) (s : BuildState) (id : NodeId) : CacheKey :=
  s.cache.key env.scope id (some env.stage)

theorem bound?_keyAt : s.cache.bound? (keyAt env s id) =
    (s.cache.get? env.scope id (some env.stage)).bind CacheRecord.bound := rfl

theorem counted_counting {k : CacheKey} :
    (s.counting env id).cache.Counted k ↔ k = keyAt env s id ∨ s.cache.Counted k :=
  NodeCache.counted_count

/-- The count is one after the first reference only. -/
theorem meets_countReference {α : Type} {m : NodeId} {first again : Build α} {ends : Failure → Prop}
    {post : α → BuildState → Prop} :
    Meets (countReference m >>= fun n => if n = 1 then first else again) env s ends post ↔
      (¬s.cache.Counted (keyAt env s m) → Meets first env (s.counting env m) ends post) ∧
        (s.cache.Counted (keyAt env s m) → Meets again env (s.counting env m) ends post) := by
  have count : (s.counting env m).cache.usage env.scope m (some env.stage) =
      s.cache.usage env.scope m (some env.stage) + 1 := NodeCache.usage_count _ _ _ _
  have met : (s.counting env m).cache.usage env.scope m (some env.stage) = 1 ↔
      ¬s.cache.Counted (keyAt env s m) := by
    unfold keyAt
    rw [NodeCache.counted_key]
    omega
  unfold countReference
  rw [meets_bind, meets_bind, meets_read, meets_modifyGet]
  show Meets (if (s.counting env m).cache.usage env.scope m (some env.stage) = 1 then _ else _)
    env (s.counting env m) ends _ ↔ _
  rw [meets_ite, met, not_not]

/-- Analysis meets a node below itself, again, or for the first time. -/
theorem meets_analyzeIn {post : BuildState → Prop}
    (below : ∀ m, env.plan.resolve id = .ok m → m ∈ env.path →
      L.ends (.refused (.ofCause (GraphError.cycle m))))
    (again : ∀ m, env.plan.resolve id = .ok m → m ∉ env.path →
      s.cache.Counted (keyAt env s m) → post (s.counting env m))
    (first : ∀ m n, env.plan.resolve id = .ok m → m ∉ env.path →
      ¬s.cache.Counted (keyAt env s m) → env.plan.node m = .ok n →
      Meets (analyzeNode (analyzeIn fuel) m n) { env with path := m :: env.path }
        (s.counting env m) L.ends fun _ => post) :
    Meets (analyzeIn (fuel + 1) id) env s L.ends fun _ => post := by
  rw [analyzeIn, meets_bind, meets_resolve]
  cases hr : env.plan.resolve id with
  | error e => exact L.ordinary (Cause.isCycle_of_isOfWalk (resolve_error hr))
  | ok m =>
    show Meets (read >>= _) env s L.ends _
    rw [meets_bind, meets_read, meets_ite, List.contains_iff_mem]
    refine ⟨fun hm => ?_, fun hm => ?_⟩
    · rw [meets_bind, meets_located, meets_fail]
      exact L.located (below m hr hm)
    refine meets_countReference.2 ⟨fun new => ?_, again m hr hm⟩
    unfold Build.below
    rw [meets_withReader, meets_located, meets_bind, meets_node]
    cases hn : env.plan.node m with
    | error e => exact L.located (L.ordinary (Cause.isCycle_of_isOfWalk (node_error hn)))
    | ok n => exact (first m n hr hm new hn).mono (fun _ => L.located) fun _ _ h => h

end Build

open Build

/-- Enters what a node stands for into the tables, and walks nowhere. -/
def Build.enterNode (id : NodeId) (n : Node) : Build Unit := analyzeNode (fun _ => pure ()) id n

/-- Below most nodes analysis enters what they stand for, and then walks on to all that they refer
to. -/
theorem Build.analyzeNode_eq {n : Node} (hn : n.shifts = false) (analyze : NodeId → Build Unit)
    (id : NodeId) :
    analyzeNode analyze id n = enterNode id n >>= fun _ => n.children.forM analyze := by
  have nowhere : ∀ cs : List NodeId, cs.forM (fun _ => (pure () : Build Unit)) = pure () := by
    intro cs
    induction cs with
    | nil => rfl
    | cons c cs ih => exact ih
  have leaf : ∀ {α : Type} (step : Build α),
      discard step = discard step >>= fun _ => ([] : List NodeId).forM analyze :=
    fun step => (bind_pure_unit (x := discard step)).symm
  have walk : ∀ cs : List NodeId,
      cs.forM analyze = (cs.forM fun _ => (pure () : Build Unit)) >>= fun _ => cs.forM analyze := by
    intro cs
    rw [nowhere, pure_bind]
  have after : ∀ {α : Type} (step : Build α) (cs : List NodeId),
      (discard step >>= fun _ => cs.forM analyze) =
        (discard step >>= fun _ => cs.forM fun _ => (pure () : Build Unit)) >>= fun _ =>
          cs.forM analyze := by
    intro α step cs
    rw [nowhere, bind_pure_unit]
  cases n with
  | uniform | meshAttribute | storageBuffer => exact leaf _
  | texture | call => exact after _ _
  | varying | context | contextValue | cache => cases hn
  | _ => exact walk _

theorem Law.Keeps.enterNode {L : Law} {env : Env} {id : NodeId} {n : Node} {deep : Prop}
    (hL : L.Tabular deep) (hf : ∀ f args, n = .call f args → L.Keeps env (registerFunction f))
    (hn : n.shifts = false) : L.Keeps env (enterNode id n) := by
  have nowhere : ∀ cs : List NodeId, L.Keeps env (cs.forM fun _ => (Pure.pure () : Build Unit)) :=
    fun cs => .forM fun _ _ => .pure _
  cases n with
  | uniform name type group update value =>
    exact .discard (hL.keeps fun _ => registerUniform_tables _ _ _ _ _ _)
  | meshAttribute name type => exact .discard (hL.keeps fun _ => registerAttribute_tables _ _)
  | storageBuffer name element count access =>
    exact .discard (hL.keeps fun _ => registerStorage_tables _ _ _ _)
  | texture name uv level =>
    exact .bind (.discard (hL.keeps fun _ => registerTexture_tables name)) fun _ => nowhere _
  | call f args => exact .bind (.discard (hf f args rfl)) fun _ => nowhere _
  | varying | context | contextValue | cache => cases hn
  | _ => exact nowhere _

/-- Below most nodes analysis walks on to all that they refer to. -/
theorem Law.Secures.analyzeNode {L : Law} {env : Env} {id : NodeId} {n : Node} {deep : Prop}
    (hL : L.Tabular deep) (hf : ∀ f args, n = .call f args → L.Keeps env (registerFunction f))
    {analyze : NodeId → Build Unit} {Q : NodeId → BuildState → Prop}
    (stable : ∀ c s s', L.rel [] s s' → Q c s → Q c s') (hn : n.shifts = false)
    (h : ∀ c ∈ n.children, L.Secures env (analyze c) (Q c)) :
    L.Secures env (analyzeNode analyze id n) fun s => ∀ c ∈ n.children, Q c s := by
  rw [analyzeNode_eq hn]
  exact .after (.enterNode hL hf hn) fun _ => .forM stable h

/-! ### The roots of a build -/

/-- Steps at the roots keep to a law when the step at each root does. -/
theorem Law.Secures.atRoots {L : Law} {p : Plan} {active : List Stage}
    {step : NodeId → Build Unit} {Q : Stage × NodeId → BuildState → Prop}
    (stable : ∀ r s s', L.rel [] s s' → Q r s → Q r s') {roots : List (Stage × NodeId)}
    {s : BuildState} (hs : ∀ r ∈ roots, L.inv (Env.root p active r.1) s)
    (h : ∀ r ∈ roots, L.Secures (Env.root p active r.1) (step r.2) (Q r)) :
    match atRoots p active step roots s with
    | .ok s' => L.rel [] s s' ∧ ∀ r ∈ roots, Q r s'
    | .error f => L.ends f := by
  induction roots generalizing s with
  | nil => exact ⟨L.refl s, fun r hr => nomatch hr⟩
  | cons r rest ih =>
    have first := h r (.head _) s (hs r (.head _))
    rw [Build.atRoots, Build.atRoot]
    cases hr : step r.2 (Env.root p active r.1) s with
    | error f => exact first.failure hr
    | ok done =>
      obtain ⟨hrel, hq⟩ := first.post hr
      have next := ih (fun r' hr' => L.mono (hs r' (.tail _ hr')) hrel)
        fun r' hr' => h r' (.tail _ hr')
      show match Build.atRoots p active step rest done.2 with
        | .ok s' => L.rel [] s s' ∧ ∀ r' ∈ r :: rest, Q r' s'
        | .error f => L.ends f
      cases hm : Build.atRoots p active step rest done.2 with
      | error f =>
        rw [hm] at next
        exact next
      | ok s' =>
        rw [hm] at next
        refine ⟨L.trans hrel next.1, fun r' hr' => ?_⟩
        rcases List.mem_cons.1 hr' with rfl | hr'
        · exact stable _ _ _ next.1 hq
        · exact next.2 r' hr'

theorem Law.Keeps.atRoots {L : Law} {p : Plan} {active : List Stage} {step : NodeId → Build Unit}
    {roots : List (Stage × NodeId)} {s : BuildState}
    (hs : ∀ r ∈ roots, L.inv (Env.root p active r.1) s)
    (h : ∀ r ∈ roots, L.Keeps (Env.root p active r.1) (step r.2)) :
    match atRoots p active step roots s with
    | .ok s' => L.rel [] s s'
    | .error f => L.ends f := by
  have walk : ∀ r ∈ roots, L.Secures (Env.root p active r.1) (step r.2) fun _ => True :=
    fun r hr s hs => (h r hr s hs).imp fun _ _ hr => ⟨hr, trivial⟩
  have all := Law.Secures.atRoots (Q := fun _ _ => True) (fun _ _ _ _ hq => hq) hs walk
  cases hr : Build.atRoots p active step roots s with
  | ok s' =>
    rw [hr] at all
    exact all.1
  | error f =>
    rw [hr] at all
    exact all

end ShaderGraph
