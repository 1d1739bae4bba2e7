import Mathlib.Data.List.Forall2
import Mathlib.Logic.Basic
import ShaderGraph.Build.Run
import ShaderGraph.Proofs.Meets

/-!
# Twin builds

Two builds of one graph, side by side. They may differ in the labels of nodes, in the order in which
attributes are listed, and in their dialects; `same` says that the dialects are the same.

`BuildState.shape` is what is left of a state without the names and the code that a build makes up.
`Build.Twins same env env' R step step'` says that two steps, taken in states of one shape, end in
states of one shape and in values that are related by `R`; if `same`, they end in the same state, and
one fails if the other does. For each way to compose steps there is a lemma.
-/

namespace ShaderGraph

variable {α β γ δ ε ε' : Type} {same : Prop}

/-! ### Likeness -/

/-- Two values of one shape, which are the same if `same`. -/
structure Alike (same : Prop) (shape : α → γ) (a b : α) : Prop where
  shape : shape a = shape b
  eq : same → a = b

/-- Two names or pieces of code that builds made up, which are the same if `same`. -/
def Made (same : Prop) (a b : α) : Prop := same → a = b

theorem Alike.refl (shape : α → γ) (a : α) : Alike same shape a a := ⟨rfl, fun _ => rfl⟩

theorem Alike.of_shape {shape : α → γ} {a b : α} (h : shape a = shape b) : Alike False shape a b :=
  ⟨h, False.elim⟩

theorem Alike.map {shape : α → γ} {shape' : β → δ} {a b : α} (h : Alike same shape a b) (f : α → β)
    (hf : ∀ a b, shape a = shape b → shape' (f a) = shape' (f b)) : Alike same shape' (f a) (f b) :=
  ⟨hf a b h.shape, fun hs => congrArg f (h.eq hs)⟩

/-- Two values that are there or not, and made up where they are. -/
theorem Alike.option {a b : Option α} (h : Alike same Option.isSome a b) :
    a = none ∧ b = none ∨ ∃ x y, a = some x ∧ b = some y ∧ Made same x y := by
  obtain ⟨shape, eq⟩ := h
  cases a with
  | none =>
    cases b with
    | none => exact .inl ⟨rfl, rfl⟩
    | some y => cases shape
  | some x =>
    cases b with
    | none => cases shape
    | some y => exact .inr ⟨x, y, rfl, rfl, fun he => Option.some.inj (eq he)⟩

theorem Made.some {a b : α} (h : Made same a b) : Alike same Option.isSome (some a) (some b) :=
  ⟨rfl, fun he => congrArg Option.some (h he)⟩

theorem Alike.mapOption {a b : Option α} (h : Alike same Option.isSome a b) (f : α → β) :
    Alike same Option.isSome (a.map f) (b.map f) :=
  h.map (Option.map f) fun a b h => by rw [Option.isSome_map, Option.isSome_map, h]

theorem Made.refl (a : α) : Made same a a := fun _ => rfl

theorem Made.map {a b : α} (h : Made same a b) (f : α → β) : Made same (f a) (f b) :=
  fun hs => congrArg f (h hs)

theorem Made.map₂ {a b : α} {a' b' : β} (h : Made same a b) (h' : Made same a' b') (f : α → β → γ) :
    Made same (f a a') (f b b') :=
  fun hs => h hs ▸ h' hs ▸ rfl

theorem Made.of_forall₂ {as bs : List α} (h : List.Forall₂ (Made same) as bs) :
    Made same as bs := by
  intro hs
  have equal : List.Forall₂ Eq as bs := h.imp fun _ _ h => h hs
  exact List.forall₂_eq_eq_eq ▸ equal

/-- Two outcomes agree: they are values related by `R` or both are failures. One of them may be a
failure alone unless `same`. -/
def Agrees (same : Prop) (R : α → β → Prop) : Except ε α → Except ε' β → Prop
  | .ok a, .ok b => R a b
  | .error _, .error _ => True
  | .ok _, .error _ | .error _, .ok _ => ¬same

theorem Agrees.refl {R : α → α → Prop} {r : Except ε α} (h : ∀ a, r = .ok a → R a a) :
    Agrees same R r r := by
  cases r with
  | ok a => exact h a rfl
  | error e => trivial

theorem Agrees.imp {R Q : α → β → Prop} {r : Except ε α} {r' : Except ε' β} (h : Agrees same R r r')
    (hq : ∀ a b, R a b → Q a b) : Agrees same Q r r' := by
  cases r <;> cases r' <;> first | exact hq _ _ h | exact h

/-- The four ways in which two outcomes can agree. -/
theorem Agrees.cases {R : α → β → Prop} {r : Except ε α} {r' : Except ε' β}
    (h : Agrees same R r r') :
    (∃ a b, r = .ok a ∧ r' = .ok b ∧ R a b) ∨ (∃ e e', r = .error e ∧ r' = .error e') ∨
      (¬same ∧ ∃ a e', r = .ok a ∧ r' = .error e') ∨
        (¬same ∧ ∃ e b, r = .error e ∧ r' = .ok b) := by
  cases r with
  | ok a =>
    cases r' with
    | ok b => exact .inl ⟨a, b, rfl, rfl, h⟩
    | error e' => exact .inr (.inr (.inl ⟨h, a, e', rfl, rfl⟩))
  | error e =>
    cases r' with
    | ok b => exact .inr (.inr (.inr ⟨h, e, b, rfl, rfl⟩))
    | error e' => exact .inr (.inl ⟨e, e', rfl, rfl⟩)

theorem Agrees.left {R : α → β → Prop} {r : Except ε α} {e : ε'} (h : ¬same) :
    Agrees same R r (.error e) := by
  cases r with
  | ok _ => exact h
  | error _ => trivial

theorem Agrees.right {R : α → β → Prop} {r : Except ε' β} {e : ε} (h : ¬same) :
    Agrees same R (.error e) r := by
  cases r with
  | ok _ => exact h
  | error _ => trivial

theorem Agrees.bind {R : α → β → Prop} {Q : γ → δ → Prop} {r : Except ε α} {r' : Except ε' β}
    {next : α → Except ε γ} {next' : β → Except ε' δ} (h : Agrees same R r r')
    (hn : ∀ a b, R a b → Agrees same Q (next a) (next' b)) :
    Agrees same Q (r >>= next) (r' >>= next') := by
  rcases h.cases with ⟨a, b, rfl, rfl, hab⟩ | ⟨e, e', rfl, rfl⟩ | ⟨alone, a, e', rfl, rfl⟩ |
    ⟨alone, e, b, rfl, rfl⟩
  · exact hn a b hab
  · trivial
  · exact .left alone
  · exact .right alone

theorem Agrees.mapError {ζ ζ' : Type} {R : α → β → Prop} {r : Except ε α} {r' : Except ε' β}
    (h : Agrees same R r r') (f : ε → ζ) (f' : ε' → ζ') :
    Agrees same R (r.mapError f) (r'.mapError f') := by
  cases r <;> cases r' <;> exact h

theorem Agrees.mapM {ι : Type} {R : α → β → Prop} {f : ι → Except ε α} {f' : ι → Except ε' β}
    (h : ∀ x, Agrees same R (f x) (f' x)) (xs : List ι) :
    Agrees same (List.Forall₂ R) (xs.mapM f) (xs.mapM f') := by
  induction xs with
  | nil => exact List.Forall₂.nil
  | cons x rest ih =>
    rw [List.mapM_cons, List.mapM_cons]
    exact (h x).bind fun a b hab => ih.bind fun as bs habs => List.Forall₂.cons hab habs

/-- What never fails alone has two values or two errors. -/
theorem Agrees.both {R : α → β → Prop} {r : Except ε α} {r' : Except ε' β}
    (h : Agrees True R r r') :
    (∃ e e', r = .error e ∧ r' = .error e') ∨ ∃ a b, r = .ok a ∧ r' = .ok b ∧ R a b := by
  rcases h.cases with values | errors | ⟨never, -⟩ | ⟨never, -⟩
  · exact .inr values
  · exact .inl errors
  · exact absurd trivial never
  · exact absurd trivial never

/-! ### Shapes -/

namespace OrderedMap

variable {κ : Type} [DecidableEq κ]

/-- The map with each value changed. -/
def map (f : α → β) (m : OrderedMap κ α) : OrderedMap κ β := ⟨m.entries.map fun e => (e.1, f e.2)⟩

@[simp] theorem get?_map (f : α → β) (m : OrderedMap κ α) (k : κ) :
    (m.map f).get? k = (m.get? k).map f := by
  obtain ⟨entries⟩ := m
  show find? k (entries.map fun e => (e.1, f e.2)) = (find? k entries).map f
  induction entries with
  | nil => rfl
  | cons e rest ih =>
    simp only [List.map_cons, find?]
    split
    · rfl
    · exact ih

@[simp] theorem map_put (f : α → β) (m : OrderedMap κ α) (k : κ) (a : α) :
    (m.put k a).map f = (m.map f).put k (f a) := by
  obtain ⟨entries⟩ := m
  have entries' : (putIn k a entries).map (fun e => (e.1, f e.2)) =
      putIn k (f a) (entries.map fun e => (e.1, f e.2)) := by
    induction entries with
    | nil => rfl
    | cons e rest ih =>
      simp only [List.map_cons, putIn]
      split
      · rfl
      · rw [List.map_cons, ih]
  exact congrArg OrderedMap.mk entries'

/-- Under one key maps of one shape have values of one shape, or both none. -/
theorem found {f : α → β} {m m' : OrderedMap κ α} (h : Alike same (map f) m m') (k : κ) :
    m.get? k = none ∧ m'.get? k = none ∨
      ∃ a a', m.get? k = some a ∧ m'.get? k = some a' ∧ Alike same f a a' := by
  have values : (m.get? k).map f = (m'.get? k).map f := by rw [← get?_map, h.shape, get?_map]
  cases ha : m.get? k with
  | none =>
    cases ha' : m'.get? k with
    | none => exact .inl ⟨rfl, rfl⟩
    | some a' => simp [ha, ha'] at values
  | some a =>
    cases ha' : m'.get? k with
    | none => simp [ha, ha'] at values
    | some a' =>
      refine .inr ⟨a, a', rfl, rfl, by simpa [ha, ha'] using values, fun he => ?_⟩
      exact Option.some.inj (ha.symm.trans (h.eq he ▸ ha'))

end OrderedMap

/-- A bound name without the name. -/
def BoundName.shape (b : BoundName) : BlockId × Option FrameId := (b.block, b.frame)

/-- A record without the name that its node is bound to. -/
def CacheRecord.shape (r : CacheRecord) : Nat × Option (BlockId × Option FrameId) :=
  (r.usage, r.bound.map BoundName.shape)

/-- A cache without the names that nodes are bound to. -/
def NodeCache.shape (c : NodeCache) :
    List (Option ScopeId) × OrderedMap (ScopeId × NodeId) ScopeId ×
    OrderedMap CacheKey (Nat × Option (BlockId × Option FrameId)) :=
  (c.parents, c.derived, c.records.map CacheRecord.shape)

theorem NodeCache.scopeFor_shape {c c' : NodeCache} (h : c.shape = c'.shape) {enclosing : ScopeId}
    {node : NodeId} {shares : Bool} :
    (c.scopeFor enclosing node shares).1 = (c'.scopeFor enclosing node shares).1 ∧
      (c.scopeFor enclosing node shares).2.shape = (c'.scopeFor enclosing node shares).2.shape := by
  obtain ⟨parents, derived, records⟩ := c
  obtain ⟨parents', derived', records'⟩ := c'
  obtain ⟨rfl, rfl, hr⟩ : parents = parents' ∧ derived = derived' ∧
      records.map CacheRecord.shape = records'.map CacheRecord.shape := by
    simpa [shape] using h
  unfold scopeFor
  dsimp only
  split <;> simp [shape, hr]

/-- What a stage has collected, without names and code. -/
def StageBuild.shape (b : StageBuild) : StageBuild :=
  { b with
    names := .empty
    tempCounter := 0
    inner := b.inner.map fun block => ⟨block.id, []⟩
    outer := ⟨b.outer.id, []⟩
    locals := []
    properties := b.properties.map fun v => (v.1, "")
    output := none }

def UniformEntry.shape (u : UniformEntry) : UniformEntry := { u with member := "" }

def GroupEntry.shape (g : GroupEntry) : GroupEntry :=
  { g with block := "", inst := "", members := g.members.map fun m => ("", m.2) }

def TextureEntry.shape (t : TextureEntry) : TextureEntry := { t with name := "", sampler := "" }

def StorageEntry.shape (b : StorageEntry) : StorageEntry := { b with name := "", block := "" }

def AttributeEntry.shape (a : AttributeEntry) : AttributeEntry := { a with name := "" }

def VaryingEntry.shape (v : VaryingEntry) : VaryingEntry := { v with name := "" }

/-- A function without its names and texts. -/
def FunctionEntry.shape (f : FunctionEntry) : FunctionEntry :=
  { f with name := "", claimed := "", code := "", source := "" }

/-- A loop without the name of its counter. -/
def ActiveLoop.shape (l : ActiveLoop) : NodeId × Nat := (l.node, l.param)

/-- What a build has collected, without the names and the code that it made up. -/
structure Shape where
  cache : List (Option ScopeId) × OrderedMap (ScopeId × NodeId) ScopeId ×
    OrderedMap CacheKey (Nat × Option (BlockId × Option FrameId))
  frames : FrameTable
  types : OrderedMap (NodeId × FrameId) ValueType
  stages : Stage → StageBuild
  uniforms : OrderedMap UniformKey UniformEntry
  groups : OrderedMap String GroupEntry
  textures : OrderedMap String TextureEntry
  storage : OrderedMap String StorageEntry
  attributes : OrderedMap String AttributeEntry
  varyings : OrderedMap NodeId VaryingEntry
  functions : OrderedMap FunctionId FunctionEntry
  nextBinding : Nat
  nextAttribute : Nat
  nextVarying : Nat
  updates : OrderedMap NodeId UpdateRecord

/-- What is left of a state without the names and the code that the build made up. -/
def BuildState.shape (s : BuildState) : Shape where
  cache := s.cache.shape
  frames := s.frames
  types := s.types
  stages t := (s.stages.get t).shape
  uniforms := s.uniforms.map UniformEntry.shape
  groups := s.groups.map GroupEntry.shape
  textures := s.textures.map TextureEntry.shape
  storage := s.storage.map StorageEntry.shape
  attributes := s.attributes.map AttributeEntry.shape
  varyings := s.varyings.map VaryingEntry.shape
  functions := s.functions.map FunctionEntry.shape
  nextBinding := s.nextBinding
  nextAttribute := s.nextAttribute
  nextVarying := s.nextVarying
  updates := s.updates

/-- A change of a stage changes the shape of that stage. -/
theorem BuildState.shape_modify {s s' : BuildState} (h : s.shape = s'.shape) (t : Stage)
    {f f' : StageBuild → StageBuild}
    (hf : ∀ b b', b.shape = b'.shape → (f b).shape = (f' b').shape) :
    BuildState.shape { s with stages := s.stages.modify t f } =
      BuildState.shape { s' with stages := s'.stages.modify t f' } := by
  have stages : (fun u => ((s.stages.modify t f).get u).shape) =
      fun u => ((s'.stages.modify t f').get u).shape := by
    funext u
    have before : (s.stages.get u).shape = (s'.stages.get u).shape :=
      congrFun (congrArg Shape.stages h) u
    rw [PerStage.get_modify, PerStage.get_modify]
    split
    · exact hf _ _ before
    · exact before
  show { s.shape with stages := fun u => ((s.stages.modify t f).get u).shape } =
    ({ s'.shape with stages := fun u => ((s'.stages.modify t f').get u).shape } : Shape)
  rw [h, stages]

/-! ### Plans and surroundings -/

/-- The nodes of a graph. -/
def Graph.nodes (g : Graph) : List Node := g.entries.toList.map Entry.node

/-- Two graphs that differ in the labels of their nodes at most. -/
structure Graph.Twin (g g' : Graph) : Prop where
  uid : g.uid = g'.uid
  version : g.version = g'.version
  nodes : g.nodes = g'.nodes
  functions : g.functions = g'.functions
  defaultUv : g.defaultUv = g'.defaultUv

/-- Labels have no part in what the setup does, other than in labels and reports. -/
def Setup.IgnoresLabels (setup : Setup) : Prop :=
  ∀ c (g g' : Graph), g.Twin g' →
    Agrees True Eq (setup c g).1 (setup c g').1 ∧ (setup c g).2.Twin (setup c g').2

/-- Two settings that differ in the order of attributes and, unless `same`, in their dialects. -/
structure BuildOptions.Twin (same : Prop) (o o' : BuildOptions) : Prop where
  dialect : same → o.dialect = o'.dialect
  other : o.dialect = o'.dialect → same
  attributes : ∀ name, o.attributes.get? name = o'.attributes.get? name
  workgroup : o.workgroup = o'.workgroup
  maxDepth : o.maxDepth = o'.maxDepth
  validate : o.validate = o'.validate

theorem BuildOptions.Twin.refl (o : BuildOptions) : o.Twin True o :=
  ⟨fun _ => rfl, fun _ => trivial, fun _ => rfl, rfl, rfl, rfl⟩

/-- The plans of twin builds. A setup that looks at labels needs one graph. -/
structure Plan.Twin (same : Prop) (p p' : Plan) : Prop where
  options : p.options.Twin same p'.options
  host : p.host = p'.host
  graph : p.graph.Twin p'.graph
  labels : p.graph = p'.graph ∨ p.host.setup.IgnoresLabels
  expansions : p.expansions = p'.expansions
  structs : p.structs = p'.structs
  updates : p.updates = p'.updates
  updatesBefore : p.updatesBefore = p'.updatesBefore

/-- The surroundings of twin steps. -/
structure Env.Twin (same : Prop) (env env' : Env) : Prop where
  plan : env.plan.Twin same env'.plan
  active : env.active = env'.active
  stage : env.stage = env'.stage
  scope : env.scope = env'.scope
  frames : env.frames = env'.frames
  loops : Alike same (List.map ActiveLoop.shape) env.loops env'.loops
  path : env.path = env'.path
  typing : env.typing = env'.typing

theorem Graph.get?_eq (g : Graph) (id : NodeId) : g.get? id = g.nodes[id.index]? := by
  rw [get?, nodes, List.getElem?_map, Array.getElem?_toList]

theorem Graph.size_eq (g : Graph) : g.size = g.nodes.length := by
  rw [size, nodes, List.length_map, Array.length_toList]

theorem Graph.Twin.get? {g g' : Graph} (h : g.Twin g') (id : NodeId) : g.get? id = g'.get? id := by
  rw [get?_eq, get?_eq, h.nodes]

theorem Graph.Twin.size {g g' : Graph} (h : g.Twin g') : g.size = g'.size := by
  rw [size_eq, size_eq, h.nodes]

theorem Graph.Twin.referenceCount {g g' : Graph} (h : g.Twin g') :
    Plan.referenceCount g = Plan.referenceCount g' := by
  have count : ∀ g : Graph, Plan.referenceCount g =
      g.nodes.foldl (fun n node => n + node.children.length) 0 := by
    intro g
    unfold Plan.referenceCount Graph.nodes
    rw [← Array.foldl_toList, List.foldl_map]
  rw [count, count, h.nodes]

namespace Plan.Twin

variable {p p' : Plan}

theorem node (h : p.Twin same p') (id : NodeId) : p.node id = p'.node id := by
  rw [Plan.node, Plan.node, h.graph.get?]

theorem resolve (h : p.Twin same p') (id : NodeId) : p.resolve id = p'.resolve id := by
  rw [Plan.resolve, Plan.resolve, h.options.maxDepth, h.expansions]

end Plan.Twin

namespace Build

variable {env env' : Env} {R : α → β → Prop} {Q : γ → δ → Prop}

/-- Two steps that are taken in states of one shape end in states of one shape and in values that
are related by `R`. -/
def Twins (same : Prop) (env env' : Env) (R : α → β → Prop) (step : Build α) (step' : Build β) :
    Prop :=
  ∀ s s', Alike same BuildState.shape s s' →
    Agrees same (fun r r' => R r.1 r'.1 ∧ Alike same BuildState.shape r.2 r'.2) (step env s)
      (step' env' s')

namespace Twins

/-! ### Composition -/

theorem pure {a : α} {b : β} (h : R a b) : Twins same env env' R (Pure.pure a) (Pure.pure b) :=
  fun _ _ hs => ⟨h, hs⟩

theorem bind {step : Build α} {step' : Build β} {next : α → Build γ} {next' : β → Build δ}
    (h : Twins same env env' R step step')
    (hn : ∀ a b, R a b → Twins same env env' Q (next a) (next' b)) :
    Twins same env env' Q (step >>= next) (step' >>= next') := by
  intro s s' hs
  show Agrees same _ (step env s >>= fun r => next r.1 env r.2)
    (step' env' s' >>= fun r => next' r.1 env' r.2)
  exact (h s s' hs).bind fun r r' hr => hn r.1 r'.1 hr.1 r.2 r'.2 hr.2

theorem imp {step : Build α} {step' : Build β} {R' : α → β → Prop}
    (h : Twins same env env' R step step') (hr : ∀ a b, R a b → R' a b) :
    Twins same env env' R' step step' :=
  fun s s' hs => (h s s' hs).imp fun _ _ hp => ⟨hr _ _ hp.1, hp.2⟩

theorem map {step : Build α} {step' : Build β} {f : α → γ} {f' : β → δ}
    (h : Twins same env env' R step step') (hf : ∀ a b, R a b → Q (f a) (f' b)) :
    Twins same env env' Q (f <$> step) (f' <$> step') := by
  rw [← bind_pure_comp, ← bind_pure_comp]
  exact h.bind fun a b hab => .pure (hf a b hab)

theorem discard {step : Build α} {step' : Build β} (h : Twins same env env' R step step') :
    Twins same env env' (fun _ _ => True) (discard step) (discard step') :=
  h.map fun _ _ _ => trivial

theorem fail {c c' : Cause} : Twins same env env' R (fail c) (fail c') := fun _ _ _ => trivial

theorem exhaust : Twins same env env' R exhaust exhaust := fun _ _ _ => trivial

/-- Where the builds are not the same, one of them may fail. -/
theorem failLeft {c : Cause} {step' : Build β} (h : ¬same) :
    Twins same env env' R (Build.fail c) step' := by
  intro s s' _
  cases hr : step' env' s' with
  | ok _ => exact h
  | error _ => trivial

theorem failRight {c : Cause} {step : Build α} (h : ¬same) :
    Twins same env env' R step (Build.fail c) := by
  intro s s' _
  cases hr : step env s with
  | ok _ => exact h
  | error _ => trivial

theorem ite {c c' : Prop} [Decidable c] [Decidable c'] {a b : Build α} {a' b' : Build β}
    (hc : c ↔ c') (ha : c → Twins same env env' R a a') (hb : ¬c → Twins same env env' R b b') :
    Twins same env env' R (if c then a else b) (if c' then a' else b') := by
  by_cases h : c
  · rw [if_pos h, if_pos (hc.1 h)]
    exact ha h
  · rw [if_neg h, if_neg fun h' => h (hc.2 h')]
    exact hb h

/-- A step that is taken under a condition only, and what follows in any case. -/
theorem when {c c' : Prop} [Decidable c] [Decidable c'] {step step' : Build Unit}
    {next : Unit → Build α} {next' : Unit → Build β} {S : Unit → Unit → Prop} (hc : c ↔ c')
    (hs : c → Twins same env env' S step step')
    (hn : Twins same env env' R (next ()) (next' ())) :
    Twins same env env' R (if c then step >>= next else next ())
      (if c' then step' >>= next' else next' ()) :=
  .ite hc (fun h => (hs h).bind fun _ _ _ => hn) fun _ => hn

/-- A check that both steps make. -/
theorem check {c c' : Prop} [Decidable c] [Decidable c'] {e e' : Cause} {next : Unit → Build α}
    {next' : Unit → Build β} (hc : c ↔ c')
    (hn : ¬c → Twins same env env' R (next ()) (next' ())) :
    Twins same env env' R (if c then Build.fail e >>= next else next ())
      (if c' then Build.fail e' >>= next' else next' ()) :=
  .ite hc (fun _ _ _ _ => trivial) hn

theorem ofExcept [Coe ε Cause] [Coe ε' Cause] {r : Except ε α} {r' : Except ε' β}
    (h : Agrees same R r r') : Twins same env env' R (Build.ofExcept r) (Build.ofExcept r') := by
  cases r with
  | ok a =>
    cases r' with
    | ok b => exact .pure h
    | error e' => exact .failRight h
  | error e =>
    cases r' with
    | ok b => exact .failLeft h
    | error e' => exact .fail

theorem located {id id' : NodeId} {step : Build α} {step' : Build β}
    (h : Twins same env env' R step step') :
    Twins same env env' R (Build.located id step) (Build.located id' step') := by
  intro s s' hs
  have first := h s s' hs
  unfold Build.located
  cases hr : step env s <;> cases hr' : step' env' s' <;> rw [hr, hr'] at first <;> exact first

/-- Where the builds are not the same, steps that leave the shape of a state alone agree. -/
theorem unlike {step step' : Build α} (hs : ¬same)
    (h : ∀ s, Meets step env s (fun _ => True) fun _ s₁ => s₁.shape = s.shape)
    (h' : ∀ s, Meets step' env' s (fun _ => True) fun _ s₁ => s₁.shape = s.shape) :
    Twins same env env' (Made same) step step' := by
  intro s s' halike
  cases hr : step env s with
  | error e => exact .right hs
  | ok r =>
    cases hr' : step' env' s' with
    | error e' => exact hs
    | ok r' =>
      refine ⟨fun e => absurd e hs, ?_, fun e => absurd e hs⟩
      exact ((h s).post hr).trans (halike.shape.trans ((h' s').post hr').symm)

/-! ### Surroundings and state -/

theorem read {next : Env → Build α} {next' : Env → Build β}
    (h : Twins same env env' R (next env) (next' env')) :
    Twins same env env' R (MonadReader.read >>= next) (MonadReader.read >>= next') :=
  h

theorem get {next : BuildState → Build α} {next' : BuildState → Build β}
    (h : ∀ s s', Alike same BuildState.shape s s' → Twins same env env' R (next s) (next' s')) :
    Twins same env env' R (MonadState.get >>= next) (MonadState.get >>= next') :=
  fun s s' hs => h s s' hs s s' hs

theorem modifyGet {f : BuildState → α × BuildState} {f' : BuildState → β × BuildState}
    (h : ∀ s s', Alike same BuildState.shape s s' → R (f s).1 (f' s').1)
    (hs : ∀ s s', Alike same BuildState.shape s s' →
      Alike same BuildState.shape (f s).2 (f' s').2) :
    Twins same env env' R (MonadStateOf.modifyGet f : Build α)
      (MonadStateOf.modifyGet f' : Build β) :=
  fun s s' halike => ⟨h s s' halike, hs s s' halike⟩

theorem change {f f' : BuildState → BuildState} (hf : same → f = f')
    (hs : ∀ s s', s.shape = s'.shape → (f s).shape = (f' s').shape) :
    Twins same env env' (fun _ _ => True) (modify f) (modify f') :=
  fun s s' h => ⟨trivial, hs s s' h.shape, fun he => (h.eq he) ▸ congrFun (hf he) s⟩

theorem inScope {scope : ScopeId} {step : Build α} {step' : Build β}
    (h : Twins same { env with scope := scope } { env' with scope := scope } R step step') :
    Twins same env env' R (Build.inScope scope step) (Build.inScope scope step') :=
  h

theorem inLoop {l l' : ActiveLoop} {step : Build α} {step' : Build β}
    (h : Twins same { env with loops := l :: env.loops }
      { env' with loops := l' :: env'.loops } R step
      step') : Twins same env env' R (Build.inLoop l step) (Build.inLoop l' step') :=
  h

theorem inStage (henv : env.Twin same env') {t : Stage} {step : Build α} {step' : Build β}
    (h : ∀ {e e' : Env}, e.Twin same e' → Twins same e e' R step step') :
    Twins same env env' R (Build.inStage t step) (Build.inStage t step') := by
  refine .read (.ite (by rw [henv.stage]) (fun _ => h henv) fun _ => h ?_)
  exact { henv with stage := rfl, loops := .refl _ _ }

theorem cacheScope (henv : env.Twin same env') {id : NodeId} {shares : Bool} :
    Twins same env env' Eq (Build.cacheScope id shares) (Build.cacheScope id shares) := by
  have found : ∀ s s' : BuildState, s.shape = s'.shape →
      (s.cache.scopeFor env.scope id shares).1 = (s'.cache.scopeFor env'.scope id shares).1 ∧
        (s.cache.scopeFor env.scope id shares).2.shape =
          (s'.cache.scopeFor env'.scope id shares).2.shape := by
    intro s s' h
    rw [henv.scope]
    exact NodeCache.scopeFor_shape (congrArg Shape.cache h)
  refine .read (.modifyGet (fun s s' h => (found s s' h.shape).1) fun s s' h => ⟨?_, fun he => ?_⟩)
  · show { s.shape with cache := (s.cache.scopeFor env.scope id shares).2.shape } =
      ({ s'.shape with cache := (s'.cache.scopeFor env'.scope id shares).2.shape } : Shape)
    rw [h.shape, (found s s' h.shape).2]
  · rw [h.eq he, henv.scope]

theorem inContext (henv : env.Twin same env') {id : NodeId} {values : List (String × NodeId)}
    {step : Build α} {step' : Build β}
    (h : ∀ {e e' : Env}, e.Twin same e' → Twins same e e' R step step') :
    Twins same env env' R (Build.inContext id values step) (Build.inContext id values step') := by
  have extended : ∀ s s' : BuildState, s.shape = s'.shape →
      s.frames.extend (Frame.current env.frames) id =
        s'.frames.extend (Frame.current env'.frames) id := by
    intro s s' h
    rw [show s.frames = s'.frames from congrArg Shape.frames h, henv.frames]
  refine .read (.bind (R := Eq) (.modifyGet (fun s s' hs => ?_) fun s s' hs => ⟨?_, fun he => ?_⟩)
    fun a b hab => ?_)
  · show (s.frames.extend (Frame.current env.frames) id).1 =
      (s'.frames.extend (Frame.current env'.frames) id).1
    rw [extended s s' hs.shape]
  · show { s.shape with frames := (s.frames.extend (Frame.current env.frames) id).2 } =
      ({ s'.shape with frames := (s'.frames.extend (Frame.current env'.frames) id).2 } : Shape)
    rw [hs.shape, extended s s' hs.shape]
  · rw [hs.eq he, henv.frames]
  · subst hab
    exact h { henv with frames := congrArg (⟨a, values⟩ :: ·) henv.frames }

theorem withContextValue (henv : env.Twin same env') {key : String} {fallback : Option NodeId}
    {step : NodeId → Build α} {step' : NodeId → Build β}
    (h : ∀ {e e' : Env}, e.Twin same e' → ∀ id, Twins same e e' R (step id) (step' id)) :
    Twins same env env' R (Build.withContextValue key fallback step)
      (Build.withContextValue key fallback step') := by
  refine .read ?_
  rw [← henv.frames]
  split
  · next node outer _ =>
    have lent : Env.Twin same { env with frames := outer } { env' with frames := outer } :=
      { henv with frames := rfl }
    exact h lent node
  · split
    · exact h henv _
    · exact .fail

/-! ### The plan -/

theorem resolve (henv : env.Twin same env') (id : NodeId) :
    Twins same env env' Eq (Build.resolve id) (Build.resolve id) := by
  refine .read (.ofExcept ?_)
  rw [henv.plan.resolve]
  exact .refl fun _ _ => rfl

theorem node (henv : env.Twin same env') (id : NodeId) :
    Twins same env env' Eq (Build.node id) (Build.node id) := by
  refine .read (.ofExcept ?_)
  rw [henv.plan.node]
  exact .refl fun _ _ => rfl

theorem stage (henv : env.Twin same env') : Twins same env env' Eq Build.stage Build.stage :=
  .read (.pure henv.stage)

theorem structMembers (henv : env.Twin same env') (name : String) :
    Twins same env env' Eq (Build.structMembers name) (Build.structMembers name) := by
  refine .read ?_
  rw [henv.plan.structs]
  split
  · exact .pure rfl
  · exact .fail

/-! ### The current stage -/

theorem here (henv : env.Twin same env') :
    Twins same env env' (Alike same StageBuild.shape) Build.here Build.here := by
  refine .get fun s s' h => .read (.pure ?_)
  rw [henv.stage]
  exact ⟨congrFun (congrArg Shape.stages h.shape) env'.stage, fun he => h.eq he ▸ rfl⟩

theorem modifyHere (henv : env.Twin same env') {f f' : StageBuild → StageBuild} (he : same → f = f')
    (hf : ∀ b b', b.shape = b'.shape → (f b).shape = (f' b').shape) :
    Twins same env env' (fun _ _ => True) (Build.modifyHere f) (Build.modifyHere f') := by
  refine .read ?_
  rw [henv.stage]
  exact .change (fun h => by rw [he h]) fun s s' h => BuildState.shape_modify h _ hf

/-- What does not look at names and code changes a stage as it changes the shape of the stage. -/
theorem collect (henv : env.Twin same env') {f : StageBuild → StageBuild}
    (hf : ∀ b, (f b).shape = f b.shape) :
    Twins same env env' (fun _ _ => True) (Build.modifyHere f) (Build.modifyHere f) :=
  modifyHere henv (fun _ => rfl) fun b b' h => by rw [hf, hf, h]

/-- The name that is taken is one that the build makes up. -/
theorem claimGlobal {n n' : String} (h : Made same n n') :
    Twins same env env' (Made same) (Build.claimGlobal n) (Build.claimGlobal n') := by
  refine .modifyGet (fun s s' hs he => ?_) fun s s' hs => ⟨hs.shape, fun he => ?_⟩
  · rw [h he, hs.eq he]
  · rw [h he, hs.eq he]

theorem claimBinding (count : Nat) :
    Twins same env env' Eq (Build.claimBinding count) (Build.claimBinding count) := by
  have next : ∀ s s' : BuildState, s.shape = s'.shape → s.nextBinding = s'.nextBinding :=
    fun s s' h => congrArg Shape.nextBinding h
  refine .modifyGet (fun s s' h => next s s' h.shape) fun s s' h => ⟨?_, fun he => h.eq he ▸ rfl⟩
  show { s.shape with nextBinding := s.nextBinding + count } =
    ({ s'.shape with nextBinding := s'.nextBinding + count } : Shape)
  rw [h.shape, next s s' h.shape]

/-! ### Lists of steps -/

theorem mapM {ι : Type} {f : ι → Build α} {f' : ι → Build β} {xs : List ι}
    (h : ∀ x ∈ xs, Twins same env env' R (f x) (f' x)) :
    Twins same env env' (List.Forall₂ R) (xs.mapM f) (xs.mapM f') := by
  induction xs with
  | nil =>
    rw [List.mapM_nil, List.mapM_nil]
    exact .pure .nil
  | cons x rest ih =>
    rw [List.mapM_cons, List.mapM_cons]
    refine (h x (.head _)).bind fun a b hab => ?_
    exact (ih fun y hy => h y (.tail _ hy)).bind fun as bs habs => .pure (.cons hab habs)

theorem forM {ι : Type} {f f' : ι → Build PUnit} {S : Unit → Unit → Prop} {xs : List ι}
    (h : ∀ x ∈ xs, Twins same env env' S (f x) (f' x)) :
    Twins same env env' (fun _ _ => True) (xs.forM f) (xs.forM f') := by
  induction xs with
  | nil => exact .pure trivial
  | cons x rest ih => exact (h x (.head _)).bind fun _ _ _ => ih fun y hy => h y (.tail _ hy)

theorem forIn {ι : Type} {f f' : ι → Build Unit} {S : Unit → Unit → Prop} {xs : List ι}
    (h : ∀ x ∈ xs, Twins same env env' S (f x) (f' x)) :
    Twins same env env' (fun _ _ => True)
      (ForIn.forIn xs PUnit.unit fun x _ => do
        f x
        Pure.pure (ForInStep.yield PUnit.unit))
      (ForIn.forIn xs PUnit.unit fun x _ => do
        f' x
        Pure.pure (ForInStep.yield PUnit.unit)) := by
  rw [forIn_eq_forM, forIn_eq_forM]
  exact .forM h

end Twins

end Build

end ShaderGraph
