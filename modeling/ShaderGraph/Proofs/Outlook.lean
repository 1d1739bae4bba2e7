import ShaderGraph.Build.Generate
import ShaderGraph.Proofs.Aloof
import ShaderGraph.Proofs.Expansion
import ShaderGraph.Proofs.Machine

/-!
# What a build looks at

An `Outlook` is a plan with some references that a build may follow: they all mean nodes that are
there and are not to be replaced, and these refer to each other only. Beside it stands a graph with
replacements that is the same as far as these references go.

`Outlook.Sees` says that a step follows no other references, apart from the loop that a loop index
names: it ends alike with the graph beside, refuses nothing because of a node that is missing or
was not replaced, and remembers only nodes that these references mean (`BuildState.Within`). The
steps of finding types and of analysis follow one after the other.
-/

namespace ShaderGraph

/-- A reference means the same node in two plans. -/
def Plan.SameAt (p q : Plan) (id : NodeId) : Prop :=
  q.resolve id = p.resolve id ∧
    ∀ m, p.resolve id = .ok m → q.graph.entries[m.index]? = p.graph.entries[m.index]?

/-- A plan with references that a build may follow, and another graph that is the same as far as
they go. -/
structure Outlook where
  plan : Plan
  graph : Graph
  expansions : OrderedMap NodeId NodeId
  ids : NodeId → Prop
  kin : plan.graph.Kin graph
  settled : ∀ {id}, ids id → plan.IsSettled id
  resolved : ∀ {id m}, ids id → plan.resolve id = .ok m → ids m
  children : ∀ {id n c}, ids id → plan.resolve id = .ok id → plan.node id = .ok n →
    c ∈ n.children → ids c
  same : ∀ {id}, ids id → plan.SameAt (plan.renewed graph expansions) id
  loops : ∀ {id loop k}, ids id → plan.resolve id = .ok id →
    plan.node id = .ok (.loopIndex loop k) → plan.SameAt (plan.renewed graph expansions) loop

/-- All nodes that a state remembers are among some references. -/
structure BuildState.Within (ids : NodeId → Prop) (s : BuildState) : Prop where
  types : ∀ {key t}, s.types.get? key = some t → ids key.1
  records : ∀ {key r}, s.cache.records.get? key = some r → ids key.node
  visits : ∀ {v}, v ∈ s.visits → ids v.key.node
  sources : ∀ {id v}, s.varyings.get? id = some v → ids v.source

theorem BuildState.Within.of_memory {ids : NodeId → Prop} {s s' : BuildState} (h : s.Within ids)
    (hm : s'.memory = s.memory) : s'.Within ids := by
  have types : s'.types = s.types := congrArg Memory.types hm
  have cache : s'.cache = s.cache := congrArg Memory.cache hm
  have visits : s'.visits = s.visits := congrArg Memory.visits hm
  have varyings : s'.varyings = s.varyings := congrArg Memory.varyings hm
  exact ⟨types ▸ h.types, cache ▸ h.records, visits ▸ h.visits, varyings ▸ h.sources⟩

/-- The record of a node that is among the references changes. -/
theorem BuildState.Within.record {ids : NodeId → Prop} {s : BuildState} (h : s.Within ids)
    {id : NodeId} (hid : ids id) (scope : ScopeId) (stage : Option Stage)
    (f : CacheRecord → CacheRecord) :
    { s with cache := s.cache.update scope id stage f }.Within ids where
  types := h.types
  records hr := by
    rcases OrderedMap.get?_of_put hr with ⟨rfl, -⟩ | ⟨-, hr⟩
    · exact hid
    · exact h.records hr
  visits := h.visits
  sources := h.sources

/-- The state remembers a varying whose source may be followed. -/
theorem BuildState.Within.varying {ids : NodeId → Prop} {s s' : BuildState} (h : s.Within ids)
    {id : NodeId} {v : VaryingEntry} (hv : ids v.source) (ht : s'.types = s.types) (hc : s'.cache = s.cache)
    (hw : s'.visits = s.visits) (hp : s'.varyings = s.varyings.put id v) : s'.Within ids where
  types := ht ▸ h.types
  records := hc ▸ h.records
  visits := hw ▸ h.visits
  sources hg := by
    rw [hp] at hg
    rcases OrderedMap.get?_of_put hg with ⟨-, rfl⟩ | ⟨-, hg⟩
    · exact hv
    · exact h.sources hg

namespace Outlook

open Build

variable {o : Outlook} {α β : Type} {P : α → Prop} {id m : NodeId} {n : Node}

/-- The surroundings belong to the plan, and the contexts lend only what may be followed. -/
structure Holds (o : Outlook) (env : Env) : Prop where
  plan : env.plan = o.plan
  frames : ∀ f ∈ env.frames, ∀ v ∈ f.values, o.ids v.2

/-- What is not there is at most a loop that a loop index names. -/
def ends (o : Outlook) : Failure → Prop
  | .refused e => e.cause.isUnmet = true → ∃ id loop k err, o.ids id ∧
      o.plan.node id = .ok (.loopIndex loop k) ∧ (o.plan.resolve loop >>= o.plan.node) = .error err ∧
        e.cause = .graph err
  | .exhausted => True

theorem ends_of_isMild {f : Failure} (h : f.IsMild) : o.ends f := by
  cases f with
  | refused e => exact fun hu => nomatch h.symm.trans hu
  | exhausted => trivial

theorem ends_locate {f : Failure} (h : o.ends f) (env : Env) : o.ends (locate env id f) := by
  cases f with
  | refused e => exact h
  | exhausted => trivial

/-- The step follows the references of the outlook only, and its value satisfies `P`. -/
def Gives (o : Outlook) (step : Build α) (P : α → Prop) : Prop :=
  ∀ env s, o.Holds env → s.Within o.ids →
    step (env.renewed o.graph o.expansions) s = step env s ∧
      Meets step env s o.ends fun a s' => s'.Within o.ids ∧ P a

/-- The step follows the references of the outlook only. -/
def Sees (o : Outlook) (step : Build α) : Prop := o.Gives step fun _ => True

/-! ### Composition -/

theorem Gives.bind {step : Build α} {next : α → Build β} {Q : β → Prop} (h : o.Gives step P)
    (hn : ∀ a, P a → o.Gives (next a) Q) : o.Gives (step >>= next) Q := by
  intro env s he hs
  obtain ⟨same, meets⟩ := h env s he hs
  rw [bind_run, bind_run, same, meets_bind]
  unfold Meets at meets ⊢
  cases hr : step env s with
  | error f =>
    rw [hr] at meets
    exact ⟨rfl, meets⟩
  | ok r =>
    rw [hr] at meets
    exact hn r.1 meets.2 env r.2 he meets.1

theorem Gives.sees {step : Build α} (h : o.Gives step P) : o.Sees step :=
  fun env s he hs => ⟨(h env s he hs).1, (h env s he hs).2.imp fun _ _ hp => ⟨hp.1, trivial⟩⟩

theorem Gives.pure {a : α} (h : P a) : o.Gives (Pure.pure a) P :=
  fun _ _ _ hs => ⟨rfl, hs, h⟩

theorem Gives.of_aloof {step : Build α} (h : Aloof step) (hp : ∀ a, P a) : o.Gives step P := by
  intro env s he hs
  obtain ⟨same, meets⟩ := h env s o.graph o.expansions (he.plan ▸ o.kin)
  refine ⟨same, meets.mono (fun _ => ends_of_isMild) fun a s' hm => ⟨hs.of_memory hm, hp a⟩⟩

theorem Sees.pure (a : α) : o.Sees (Pure.pure a : Build α) := Gives.pure trivial

theorem Sees.of_aloof {step : Build α} (h : Aloof step) : o.Sees step :=
  Gives.of_aloof h fun _ => trivial

theorem Sees.bind {step : Build α} {next : α → Build β} (h : o.Sees step)
    (hn : ∀ a, o.Sees (next a)) : o.Sees (step >>= next) := Gives.bind h fun a _ => hn a

theorem Sees.using {step : Build α} {next : α → Build β} (h : o.Gives step P)
    (hn : ∀ a, P a → o.Sees (next a)) : o.Sees (step >>= next) := Gives.bind h hn

theorem Sees.map (f : α → β) {step : Build α} (h : o.Sees step) : o.Sees (f <$> step) := by
  rw [← bind_pure_comp]
  exact h.bind fun a => .pure (f a)

theorem Sees.discard {step : Build α} (h : o.Sees step) : o.Sees (discard step) :=
  h.map fun _ => PUnit.unit

theorem Sees.ite {c : Prop} [Decidable c] {a b : Build α} (ha : o.Sees a) (hb : o.Sees b) :
    o.Sees (if c then a else b) := by
  split
  · exact ha
  · exact hb

/-- A step that is taken under a condition only, and what follows in any case. -/
theorem Sees.when {c : Prop} [Decidable c] {step : Build Unit} {next : Unit → Build α}
    (hs : o.Sees step) (hn : ∀ u, o.Sees (next u)) :
    o.Sees (if c then step >>= next else next ()) := .ite (hs.bind hn) (hn ())

theorem Sees.fail {c : Cause} (h : c.isUnmet = false) : o.Sees (fail c : Build α) :=
  .of_aloof (.fail h)

theorem Sees.ofExcept {ε : Type} [Coe ε Cause] {r : Except ε α}
    (h : ∀ e, r = .error e → (e : Cause).isUnmet = false) : o.Sees (ofExcept r) :=
  .of_aloof (.ofExcept h)

theorem Gives.after {step : Build α} {next : α → Build β} {Q : β → Prop} (h : o.Sees step)
    (hn : ∀ a, o.Gives (next a) Q) : o.Gives (step >>= next) Q := Gives.bind h fun a _ => hn a

/-- A check that refuses. -/
theorem Gives.check {c : Prop} [Decidable c] {cause : Cause} {next : Unit → Build α}
    (hc : cause.isUnmet = false) (hn : o.Gives (next ()) P) :
    o.Gives (if c then Build.fail cause >>= next else next ()) P := by
  split
  · exact fun env s _ _ => ⟨rfl, ends_of_isMild (f := .refused (.ofCause cause)) hc⟩
  · exact hn

/-- A step that reads what does not depend on nodes. -/
theorem Gives.read {next : Env → Build α}
    (hr : ∀ env, o.Holds env → next (env.renewed o.graph o.expansions) = next env)
    (h : ∀ env, o.Holds env → o.Gives (next env) P) : o.Gives (MonadReader.read >>= next) P := by
  intro env s he hs
  show next (env.renewed _ _) (env.renewed _ _) s = next env env s ∧ Meets (next env) env s _ _
  rw [hr env he]
  exact h env he env s he hs

theorem Sees.read {next : Env → Build α}
    (hr : ∀ env, o.Holds env → next (env.renewed o.graph o.expansions) = next env)
    (h : ∀ env, o.Holds env → o.Sees (next env)) : o.Sees (MonadReader.read >>= next) :=
  Gives.read hr h

theorem Gives.get {next : BuildState → Build α}
    (h : ∀ s, s.Within o.ids → o.Gives (next s) P) : o.Gives (MonadState.get >>= next) P :=
  fun env s he hs => h s hs env s he hs

theorem Sees.get {next : BuildState → Build α} (h : ∀ s, s.Within o.ids → o.Sees (next s)) :
    o.Sees (MonadState.get >>= next) := Gives.get h

theorem Sees.modify {f : BuildState → BuildState}
    (h : ∀ s, s.Within o.ids → (f s).Within o.ids) : o.Sees (modify f) :=
  fun _ s _ hs => ⟨rfl, h s hs, trivial⟩

theorem Sees.modifyGet {f : BuildState → α × BuildState}
    (h : ∀ s, s.Within o.ids → (f s).2.Within o.ids) : o.Sees (modifyGet f : Build α) :=
  fun _ s _ hs => ⟨rfl, h s hs, trivial⟩

/-- A step in other surroundings that lend only what may be followed. -/
theorem Sees.withReader {f : Env → Env} {step : Build α} (h : o.Sees step)
    (hf : ∀ env, f (env.renewed o.graph o.expansions) = (f env).renewed o.graph o.expansions)
    (hh : ∀ env, o.Holds env → o.Holds (f env)) : o.Sees (withReader f step) := by
  intro env s he hs
  show step (f (env.renewed _ _)) s = step (f env) s ∧ Meets step (f env) s _ _
  rw [hf]
  exact h (f env) s (hh env he) hs

theorem Sees.mapM {f : α → Build β} {xs : List α} (h : ∀ x ∈ xs, o.Sees (f x)) :
    o.Sees (xs.mapM f) := by
  induction xs with
  | nil =>
    rw [List.mapM_nil]
    exact .pure []
  | cons x rest ih =>
    rw [List.mapM_cons]
    refine (h x (.head _)).bind fun y => ?_
    exact (ih fun x' hx' => h x' (.tail _ hx')).bind fun ys => .pure _

theorem Sees.forM {f : α → Build PUnit} {xs : List α} (h : ∀ x ∈ xs, o.Sees (f x)) :
    o.Sees (xs.forM f) := by
  induction xs with
  | nil => exact .pure _
  | cons x rest ih => exact (h x (.head _)).bind fun _ => ih fun x' hx' => h x' (.tail _ hx')

/-! ### References -/

/-- A node that is built in its own place. -/
structure Built (o : Outlook) (id : NodeId) : Prop where
  met : o.ids id
  own : o.plan.resolve id = .ok id

theorem built (h : o.ids id) (hm : o.plan.resolve id = .ok m) : o.Built m :=
  ⟨o.resolved h hm, Plan.resolve_of_resolve hm⟩

theorem Built.child (h : o.Built id) (hn : o.plan.node id = .ok n) {c : NodeId}
    (hc : c ∈ n.children) : o.ids c := o.children h.met h.own hn hc

theorem Built.entry (h : o.Built id) :
    o.graph.entries[id.index]? = o.plan.graph.entries[id.index]? := (o.same h.met).2 id h.own

/-- A node that is built stands in both graphs. -/
theorem Built.node (h : o.Built id) : ∃ n, o.plan.node id = .ok n ∧ n.isExpandable = false := by
  obtain ⟨m, n, hm, hn, he⟩ := o.settled h.met
  cases h.own.symm.trans hm
  exact ⟨n, hn, he⟩

/-- Looks up what is built in the place of a reference that means the same in both plans. -/
theorem Sees.resolveAt {next : NodeId → Build α}
    (hs : o.plan.SameAt (o.plan.renewed o.graph o.expansions) id)
    (he : ∀ e, o.plan.resolve id = .error e → o.ends (.refused (.ofCause e)))
    (h : ∀ m, o.plan.resolve id = .ok m → o.Sees (next m)) :
    o.Sees (resolve id >>= next) := by
  intro env s hh hw
  have run : ∀ e : Env, (Build.resolve id >>= next) e s =
      ((Build.ofExcept (e.plan.resolve id) : Build NodeId) >>= next) e s := fun _ => rfl
  have other : (env.renewed o.graph o.expansions).plan.resolve id = o.plan.resolve id := by
    show (env.plan.renewed _ _).resolve id = _
    rw [hh.plan, hs.1]
  rw [run, run, other, meets_bind, meets_resolve, hh.plan]
  cases hm : o.plan.resolve id with
  | ok m => exact h m hm env s hh hw
  | error e => exact ⟨rfl, he e hm⟩

/-- Looks up a node that is the same in both plans. -/
theorem Sees.nodeAt {next : Node → Build α}
    (hs : o.graph.entries[id.index]? = o.plan.graph.entries[id.index]?)
    (he : ∀ e, o.plan.node id = .error e → o.ends (.refused (.ofCause e)))
    (h : ∀ n, o.plan.node id = .ok n → o.Sees (next n)) : o.Sees (node id >>= next) := by
  intro env s hh hw
  have run : ∀ e : Env, (Build.node id >>= next) e s =
      ((Build.ofExcept (e.plan.node id) : Build Node) >>= next) e s := fun _ => rfl
  have other : (env.renewed o.graph o.expansions).plan.node id = o.plan.node id := by
    show (env.plan.renewed _ _).node id = _
    rw [hh.plan]
    unfold Plan.node Graph.get?
    exact hs ▸ rfl
  rw [run, run, other, meets_bind, meets_node, hh.plan]
  cases hn : o.plan.node id with
  | ok n => exact h n hn env s hh hw
  | error e => exact ⟨rfl, he e hn⟩

theorem Sees.resolve {next : NodeId → Build α} (hid : o.ids id)
    (h : ∀ m, o.plan.resolve id = .ok m → o.Built m → o.Sees (next m)) :
    o.Sees (resolve id >>= next) := by
  obtain ⟨m, -, hm, -⟩ := o.settled hid
  exact .resolveAt (o.same hid) (fun _ he => nomatch hm.symm.trans he) fun m hm => h m hm (built hid hm)

theorem Sees.node {next : Node → Build α} (hid : o.Built id)
    (h : ∀ n, o.plan.node id = .ok n → n.isExpandable = false → o.Sees (next n)) :
    o.Sees (node id >>= next) := by
  obtain ⟨n, hn, hx⟩ := hid.node
  refine .nodeAt hid.entry (fun _ he => nomatch hn.symm.trans he) fun n' hn' => ?_
  cases hn.symm.trans hn'
  exact h n hn hx

theorem Sees.located {step : Build α} (hid : o.Built id) (h : o.Sees step) :
    o.Sees (located id step) := by
  intro env s he hs
  obtain ⟨same, meets⟩ := h env s he hs
  have place : (env.renewed o.graph o.expansions).plan.location id = env.plan.location id := by
    show (env.plan.renewed _ _).location id = _
    unfold Plan.location Graph.get? Graph.label?
    rw [he.plan]
    simp only [Plan.renewed, hid.entry]
  refine ⟨?_, meets.located fun f hf => ends_locate hf env⟩
  unfold Build.located
  rw [same]
  cases step env s with
  | ok r => rfl
  | error f =>
    cases f with
    | refused e =>
      simp only [locate, place]
      rfl
    | exhausted => rfl

/-! ### Scopes -/

theorem Sees.inScope (scope : ScopeId) {step : Build α} (h : o.Sees step) :
    o.Sees (inScope scope step) :=
  h.withReader (fun _ => rfl) fun _ he => ⟨he.plan, he.frames⟩

theorem Sees.inLoop (l : ActiveLoop) {step : Build α} (h : o.Sees step) :
    o.Sees (inLoop l step) :=
  h.withReader (fun _ => rfl) fun _ he => ⟨he.plan, he.frames⟩

theorem Sees.inStage (t : Stage) {step : Build α} (h : o.Sees step) :
    o.Sees (inStage t step) :=
  .read (fun _ _ => rfl) fun _ _ =>
    .ite h (h.withReader (fun _ => rfl) fun _ he => ⟨he.plan, he.frames⟩)

theorem Sees.cacheScope (id : NodeId) (shares : Bool) : o.Sees (cacheScope id shares) := by
  refine .read (fun _ _ => rfl) fun env _ => .modifyGet fun s hs => ?_
  have records : (s.cache.scopeFor env.scope id shares).2.records = s.cache.records := by
    unfold NodeCache.scopeFor
    split <;> rfl
  exact ⟨hs.types, fun {key r} hr => hs.records (records ▸ hr : s.cache.records.get? key = some r),
    hs.visits, hs.sources⟩

theorem Sees.inContext {values : List (String × NodeId)} {step : Build α}
    (hv : ∀ v ∈ values, o.ids v.2) (h : o.Sees step) : o.Sees (inContext id values step) := by
  refine .read (fun _ _ => rfl) fun env _ => .bind (.modifyGet fun s hs => ?_) fun frame => ?_
  · exact ⟨hs.types, hs.records, hs.visits, hs.sources⟩
  · exact h.withReader (fun _ => rfl) fun _ he =>
      ⟨he.plan, List.forall_mem_cons.2 ⟨hv, he.frames⟩⟩

theorem mem_of_lookup? {key : String} {frames outer : List Frame} {c : NodeId}
    (h : Frame.lookup? key frames = some (c, outer)) : ∃ f ∈ frames, (key, c) ∈ f.values := by
  induction frames with
  | nil => cases h
  | cons f rest ih =>
    unfold Frame.lookup? at h
    split at h
    · next node hl =>
      cases h
      obtain ⟨before, after, hl, -⟩ := List.lookup_eq_some_iff.1 hl
      have mem : (key, c) ∈ f.values.reverse := hl ▸ List.mem_append_right _ (.head _)
      exact ⟨f, .head _, List.mem_reverse.1 mem⟩
    · obtain ⟨f', hf', hv⟩ := ih h
      exact ⟨f', .tail _ hf', hv⟩

theorem Sees.withContextValue {key : String} {fallback : Option NodeId} {step : NodeId → Build α}
    (hf : ∀ c ∈ fallback, o.ids c) (h : ∀ c, o.ids c → o.Sees (step c)) :
    o.Sees (withContextValue key fallback step) := by
  refine .read (fun _ _ => rfl) fun env he => ?_
  split
  · next c outer hl =>
    obtain ⟨f, hmem, hv⟩ := mem_of_lookup? hl
    refine (h c (he.frames f hmem _ hv)).withReader (fun _ => rfl) fun e he' => ⟨he'.plan, ?_⟩
    exact fun f' hf' => he.frames f' ((Frame.lookup?_suffix hl).subset hf')
  · cases fallback with
    | some c => exact h c (hf c rfl)
    | none => exact .fail rfl

/-! ### Types -/

theorem Sees.counterType {loop : NodeId} {k : Nat} (hid : o.Built id)
    (hn : o.plan.node id = .ok (.loopIndex loop k)) : o.Sees (counterType loop k) := by
  have hs := o.loops hid.met hid.own hn
  -- the loop need not be there; then it is missed in both plans
  refine .resolveAt hs (fun e he _ => ⟨id, loop, k, e, hid.met, hn, ?_, rfl⟩) fun m hm =>
    .nodeAt (hs.2 m hm) (fun e he _ => ⟨id, loop, k, e, hid.met, hn, ?_, rfl⟩) fun n _ => ?_
  · rw [he]
    rfl
  · rw [hm]
    exact he
  · split
    · split
      · exact .pure _
      · exact .fail rfl
    · exact .fail rfl

theorem Sees.structType {layout : NodeId} (h : o.ids layout) : o.Sees (structType layout) :=
  .resolve h fun m _ hm => .node hm fun n _ _ => by
    split
    · exact .pure _
    · exact .fail rfl

theorem Sees.conditionalType {typeOf : NodeId → Build ValueType} {condition thenNode : NodeId}
    {elseNode : Option NodeId}
    (h : ∀ c ∈ condition :: thenNode :: elseNode.toList, o.Sees (typeOf c)) :
    o.Sees (conditionalType typeOf condition thenNode elseNode) := by
  refine .bind (h _ (.head _)) fun c => .when (.fail rfl) fun _ => ?_
  cases elseNode with
  | none => exact .pure _
  | some elseNode =>
    refine .bind (h _ (.tail _ (.head _))) fun t => ?_
    refine .bind (h _ (.tail _ (.tail _ (.head _)))) fun e => ?_
    exact .when (.fail rfl) fun _ => .pure _

/-- The type of a node follows the references that the node follows. -/
theorem Sees.typeOfNode {typeOf : NodeId → Build ValueType} (hid : o.Built id)
    (hn : o.plan.node id = .ok n) (hx : n.isExpandable = false)
    (ht : ∀ c, o.ids c → o.Sees (typeOf c)) : o.Sees (typeOfNode typeOf id n) := by
  have h : ∀ c ∈ n.children, o.Sees (typeOf c) := fun c hc => ht c (hid.child hn hc)
  cases n with
  | const type values => exact .ofExcept fun _ _ => rfl
  | meshAttribute name type => exact .of_aloof (attributeType_aloof _ _)
  | varying source => exact h source (.head _)
  | var value => exact .bind (h value (.head _)) fun t => .of_aloof (variableType_aloof t)
  | operator op left right =>
    refine .bind (h left (.head _)) fun l => .bind (h right (.tail _ (.head _))) fun r => ?_
    exact .ofExcept fun _ _ => rfl
  | unary op operand => exact .bind (h operand (.head _)) fun t => .ofExcept fun _ _ => rfl
  | math method args => exact .bind (.mapM h) fun ts => .ofExcept fun _ _ => rfl
  | split source components => exact .bind (h source (.head _)) fun t => .ofExcept fun _ _ => rfl
  | join parts explicit => exact .bind (.mapM h) fun ts => .ofExcept fun _ _ => rfl
  | conditional condition thenNode elseNode => exact .conditionalType h
  | loopIndex loop param => exact .counterType hid hn
  | stack nodes output =>
    cases output with
    | none => exact .pure _
    | some output => exact h output (by simp [NodeOf.children])
  | struct layout values => exact .structType (hid.child hn (.head _))
  | array element values => exact .ofExcept fun _ _ => rfl
  | member base name =>
    exact .bind (h base (.head _)) fun t => .of_aloof (memberType_aloof t name)
  | index base i =>
    refine .bind (h base (.head _)) fun t => .bind (h i (.tail _ (.head _))) fun t' => ?_
    exact .of_aloof (elementType_aloof t t')
  | context inner values =>
    refine .inContext (fun v hv => hid.child hn ?_) (h inner (.head _))
    exact .tail _ (List.mem_map_of_mem hv)
  | contextValue key fallback =>
    exact .withContextValue (fun c hc => hid.child hn (by simpa [NodeOf.children] using hc)) ht
  | cache inner => exact h inner (.head _)
  | call f args => exact .bind (.of_aloof (registerFunction_aloof f)) fun e => .pure _
  | remap => cases hx
  | custom => cases hx
  | _ => exact .pure _

theorem Sees.whileTyping {key : NodeId × FrameId} {step : Build α} (hid : o.Built key.1)
    (h : o.Sees step) : o.Sees (whileTyping key step) := by
  refine .read (fun _ _ => rfl) fun env _ => .when (.fail rfl) fun _ => ?_
  exact (Sees.located hid h).withReader (fun _ => rfl) fun _ he => ⟨he.plan, he.frames⟩

theorem Sees.typeOfIn (fuel : Nat) (hid : o.ids id) : o.Sees (typeOfIn fuel id) := by
  induction fuel generalizing id with
  | zero => exact .of_aloof .exhaust
  | succ fuel ih =>
    rw [Build.typeOfIn]
    refine .resolve hid fun m _ hm => .read (fun _ _ => rfl) fun env _ => .get fun s _ => ?_
    split
    · exact .pure _
    · refine .bind (.whileTyping hm (.node hm fun n hn hx => ?_)) fun t => .bind ?_ fun _ => .pure _
      · exact .typeOfNode hm hn hx fun c hc => ih hc
      · refine .modify fun s hs => ⟨fun ht => ?_, hs.records, hs.visits, hs.sources⟩
        rcases OrderedMap.get?_of_put ht with ⟨rfl, -⟩ | ⟨-, ht⟩
        · exact hm.met
        · exact hs.types ht

theorem Sees.typeOf (hid : o.ids id) : o.Sees (typeOf id) :=
  .bind (.of_aloof depthBound_aloof) fun fuel => .typeOfIn fuel hid

/-! ### Varyings -/

theorem Gives.registerVarying {source : NodeId} {name : Option String}
    {interpolation : Interpolation} {sampling : Option Sampling} (h : o.ids source) :
    o.Gives (registerVarying id source name interpolation sampling) fun v => o.ids v.source := by
  refine .get fun s hs => ?_
  split
  · next v hv => exact .pure (hs.sources hv)
  · refine .after (.of_aloof .stage) fun t => .check rfl ?_
    refine .read (fun _ _ => rfl) fun env _ => .check rfl (.after (.typeOf h) fun type => ?_)
    refine .check rfl (.after (.of_aloof (claimVarying_aloof name)) fun emitted => ?_)
    refine .after (.modify fun s hs => ?_) fun _ => .pure h
    exact hs.varying h rfl rfl rfl rfl

theorem Sees.locateVarying {v : VaryingEntry} (h : o.ids v.source) :
    o.Sees (locateVarying id v) := by
  refine .modify fun s hs => ?_
  split
  · exact hs
  · exact hs.varying (v := { v with location := some s.nextVarying }) h rfl rfl rfl rfl

/-! ### Analysis -/

theorem Sees.countReference (hid : o.ids id) : o.Sees (countReference id) :=
  .read (fun _ _ => rfl) fun env _ => .modifyGet fun _ hs => hs.record hid env.scope (some env.stage) _

theorem Sees.below {step : Build α} (hid : o.Built id) (h : o.Sees step) :
    o.Sees (below id step) :=
  (Sees.located hid h).withReader (fun _ => rfl) fun _ he => ⟨he.plan, he.frames⟩

/-- Analysis follows the references of a node. -/
theorem Sees.analyzeNode {analyze : NodeId → Build Unit} (hid : o.Built id)
    (hn : o.plan.node id = .ok n) (ha : ∀ c, o.ids c → o.Sees (analyze c)) :
    o.Sees (analyzeNode analyze id n) := by
  have h : ∀ c ∈ n.children, o.Sees (analyze c) := fun c hc => ha c (hid.child hn hc)
  cases n with
  | cache inner shares =>
    exact .bind (.cacheScope id shares) fun scope => .inScope scope (h inner (.head _))
  | context inner values =>
    refine .inContext (fun v hv => hid.child hn ?_) (h inner (.head _))
    exact .tail _ (List.mem_map_of_mem hv)
  | contextValue key fallback =>
    exact .withContextValue (fun c hc => hid.child hn (by simpa [NodeOf.children] using hc)) ha
  | varying source name interpolation sampling =>
    refine .bind (.discard (Gives.registerVarying (hid.child hn (.head _))).sees) fun _ => ?_
    exact .inStage .vertex (h source (.head _))
  | uniform name type group update value =>
    exact .discard (.of_aloof (registerUniform_aloof _ _ _ _ _ _))
  | meshAttribute name type => exact .discard (.of_aloof (registerAttribute_aloof _ _))
  | storageBuffer name element count access =>
    exact .discard (.of_aloof (registerStorage_aloof _ _ _ _))
  | texture name uv level =>
    exact .bind (.discard (.of_aloof (registerTexture_aloof name))) fun _ => .forM h
  | call f args =>
    exact .bind (.discard (.of_aloof (registerFunction_aloof f))) fun _ => .forM h
  | _ => exact .forM h

theorem Sees.analyzeIn (fuel : Nat) (hid : o.ids id) : o.Sees (analyzeIn fuel id) := by
  induction fuel generalizing id with
  | zero => exact .of_aloof .exhaust
  | succ fuel ih =>
    rw [Build.analyzeIn]
    refine .resolve hid fun m _ hm => .read (fun _ _ => rfl) fun env _ => ?_
    refine .when (.located hm (.fail rfl)) fun _ => .bind (.countReference hm.met) fun k => ?_
    refine .ite (.below hm (.node hm fun n hn _ => ?_)) (.pure _)
    exact .analyzeNode hm hn fun c hc => ih hc

/-- Analysis follows the references of the outlook only. -/
theorem Sees.analyze (hid : o.ids id) : o.Sees (analyze id) := by
  refine .read (fun env he => ?_) fun env _ => .analyzeIn _ hid
  have size : o.graph.size = env.plan.graph.size := he.plan ▸ o.kin.size
  rw [show (env.renewed o.graph o.expansions).plan.graph.size = env.plan.graph.size from size]

end Outlook

end ShaderGraph
