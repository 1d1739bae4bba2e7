import ShaderGraph.Proofs.Coverage
import ShaderGraph.Proofs.CyclesBuild
import ShaderGraph.Proofs.FoundTypes

/-!
# Nodes that are asked for

In a plan without branches, contexts and cache nodes with a scope of their own (`Plan.Plain`) all
records of a stage are kept in one scope. What a key refers to (`Plan.references`) is what analysis
asks for below it, and all of that but the layouts of structs (`Plan.operandsAt`) is what generation
asks for. In a plan that was analysed no node is below itself (`run_apart`).

`Asking` is a law that knows which nodes a step asks for: `rel asked s s'` is about steps that ask for
the keys `asked`. For each way to compose steps there is a lemma that says what the composition asks
for.

Analysis walks on from a node when it is met first. So in a plain plan each key is counted once for
each root and once for each reference of a counted key (`analyze_tallies`), whatever the order of the
walk.
-/

namespace ShaderGraph

open Relation

/-- Whether a node leaves blocks, contexts and the place of records as they are. -/
def NodeOf.keepsPlace {ρ μ : Type} : NodeOf ρ μ → Bool
  | conditional .. | loop .. | context .. | cache _ false => false
  | _ => true

namespace Plan

variable {p : Plan} {k k' : CacheKey} {n : Node} {stage : Option Stage} {a b : List CacheKey}
  {c m : NodeId}

/-- All nodes of a plan are plain. -/
def Plain (p : Plan) : Prop := ∀ id n, p.node id = .ok n → n.keepsPlace = true

theorem Plain.of_all (h : (p.graph.entries.toList.map Entry.node).all NodeOf.keepsPlace = true) :
    p.Plain := fun _ n hn => List.all_eq_true.1 h n (mem_of_node hn)

theorem Plain.contextless (hp : p.Plain) (id inner : NodeId) (values : List (String × NodeId)) :
    p.node id ≠ .ok (.context inner values) := by
  intro hn
  cases hp id _ hn

/-- Where the record of what is built in the place of a node is kept. -/
def keyOf? (p : Plan) (stage : Option Stage) (c : NodeId) : Option CacheKey :=
  (p.resolve c).toOption.map fun m => ⟨.root, m, stage⟩

/-- The keys of some nodes. -/
def keysOf (p : Plan) (stage : Option Stage) (cs : List NodeId) : List CacheKey :=
  cs.filterMap (p.keyOf? stage)

/-- The nodes whose code goes into that of a node: a struct layout has no code. -/
def operands (p : Plan) : Node → List NodeId
  | .struct layout values => if p.isLayout layout then values else layout :: values
  | n => n.children

/-- What the node of a key refers to, once for each reference. -/
def references (p : Plan) (k : CacheKey) : List CacheKey :=
  match p.node k.node with
  | .ok n => p.keysOf (n.stageBelow k.stage) n.children
  | .error _ => []

/-- What the code of the node of a key is made of, once for each reference. -/
def operandsAt (p : Plan) (k : CacheKey) : List CacheKey :=
  match p.node k.node with
  | .ok n => p.keysOf (n.stageBelow k.stage) (p.operands n)
  | .error _ => []

/-- The keys of the roots. -/
def rootKeys (p : Plan) (rs : List (Stage × NodeId)) : List CacheKey :=
  rs.flatMap fun r => p.keysOf (some r.1) [r.2]

/-- A key refers to another. -/
def References (p : Plan) (k k' : CacheKey) : Prop := k' ∈ p.references k

/-- A key is one of some others or below one of them. -/
def Beneath (p : Plan) (asked : List CacheKey) (k : CacheKey) : Prop :=
  ∃ a ∈ asked, ReflTransGen p.References a k

theorem keyOf?_of_resolve (hm : p.resolve c = .ok m) :
    p.keyOf? stage c = some ⟨.root, m, stage⟩ := by
  unfold keyOf?
  rw [hm]
  rfl

theorem keyOf?_eq_some : p.keyOf? stage c = some k ↔ p.resolve c = .ok k.node ∧
    k.scope = .root ∧ k.stage = stage := by
  unfold keyOf?
  cases hm : p.resolve c with
  | error e =>
    constructor
    · rintro ⟨⟩
    · rintro ⟨⟨⟩, -⟩
  | ok m =>
    obtain ⟨scope, node, t⟩ := k
    show some _ = some _ ↔ _
    rw [Option.some_inj, CacheKey.mk.injEq, Except.ok.injEq]
    constructor
    · rintro ⟨rfl, rfl, rfl⟩
      exact ⟨rfl, rfl, rfl⟩
    · rintro ⟨rfl, rfl, rfl⟩
      exact ⟨rfl, rfl, rfl⟩

theorem keysOf_singleton (hm : p.resolve c = .ok m) :
    p.keysOf stage [c] = [⟨.root, m, stage⟩] := by
  unfold keysOf
  rw [List.filterMap_cons_some (keyOf?_of_resolve hm), List.filterMap_nil]

theorem keysOf_cons {cs : List NodeId} :
    p.keysOf stage (c :: cs) = p.keysOf stage [c] ++ p.keysOf stage cs :=
  List.filterMap_append (l := [c])

theorem keysOf_append {cs ds : List NodeId} :
    p.keysOf stage (cs ++ ds) = p.keysOf stage cs ++ p.keysOf stage ds := List.filterMap_append

theorem keysOf_flatMap {cs : List NodeId} :
    p.keysOf stage cs = cs.flatMap fun c => p.keysOf stage [c] := by
  induction cs with
  | nil => rfl
  | cons c cs ih => rw [keysOf_cons, ih, List.flatMap_cons]

theorem references_of_node (hn : p.node k.node = .ok n) :
    p.references k = p.keysOf (n.stageBelow k.stage) n.children := by
  unfold references
  rw [hn]

theorem operandsAt_of_node (hn : p.node k.node = .ok n) :
    p.operandsAt k = p.keysOf (n.stageBelow k.stage) (p.operands n) := by
  unfold operandsAt
  rw [hn]

theorem operands_sublist : (p.operands n).Sublist n.children := by
  cases n with
  | struct layout values =>
    show (if p.isLayout layout then values else layout :: values).Sublist (layout :: values)
    split
    · exact List.sublist_cons_self _ _
    · exact .refl _
  | _ => exact .refl _

theorem operandsAt_sublist (k : CacheKey) : (p.operandsAt k).Sublist (p.references k) := by
  unfold operandsAt references
  split
  · exact operands_sublist.filterMap _
  · exact .slnil

/-- What a node refers to is an operand, or the layout of a struct. -/
theorem operand_or_layout_of_child (hc : c ∈ n.children) : c ∈ p.operands n ∨ p.isLayout c = true := by
  cases n with
  | struct layout values =>
    show c ∈ (if p.isLayout layout then values else layout :: values) ∨ _
    rcases List.mem_cons.1 hc with rfl | hc
    · split
      · next h => exact .inr h
      · exact .inl (.head _)
    · split
      · exact .inl hc
      · exact .inl (.tail _ hc)
  | _ => exact .inl hc

/-- What a key refers to is an operand, or the layout of a struct. -/
theorem operand_or_layout (h : p.References k k') : k' ∈ p.operandsAt k ∨
    ∃ n, p.node k'.node = .ok n ∧ n.isStructType = true := by
  unfold References references at h
  unfold operandsAt
  split at h
  · next n hn =>
    obtain ⟨c, hc, hk⟩ := List.mem_filterMap.1 h
    refine (operand_or_layout_of_child hc).imp (fun hc => List.mem_filterMap.2 ⟨c, hc, hk⟩) fun hl => ?_
    obtain ⟨hm, -, -⟩ := keyOf?_eq_some.1 hk
    cases hn' : p.node k'.node with
    | ok n' => exact ⟨n', rfl, (isLayout_of_node hm hn').symm.trans hl⟩
    | error e =>
      unfold isLayout at hl
      rw [hm, Except.toOption, Option.bind_some, hn'] at hl
      cases hl
  · cases h

theorem references_of_isStructType (hn : p.node k.node = .ok n) (hs : n.isStructType = true) :
    p.references k = [] := by
  rw [references_of_node hn]
  cases n <;> first | rfl | cases hs

namespace Beneath

theorem of_mem (h : k ∈ a) : p.Beneath a k := ⟨k, h, .refl⟩

theorem mono (h : p.Beneath a k) (hab : a ⊆ b) : p.Beneath b k := by
  obtain ⟨x, hx, hg⟩ := h
  exact ⟨x, hab hx, hg⟩

theorem tail (h : p.Beneath a k) (hr : p.References k k') : p.Beneath a k' := by
  obtain ⟨x, hx, hg⟩ := h
  exact ⟨x, hx, hg.tail hr⟩

/-- What is below the operands of a key is below the key. -/
theorem transGen (h : p.Beneath (p.references k) k') : TransGen p.References k k' := by
  obtain ⟨x, hx, hg⟩ := h
  exact .head' hx hg

end Beneath

/-- A reference is a step of evaluation, where no contexts are around. -/
theorem Plain.step (hp : p.Plain) (h : p.References k k') : p.Step ⟨k.node, []⟩ ⟨k'.node, []⟩ := by
  unfold References references at h
  split at h
  · next n hn =>
    obtain ⟨c, hc, hk⟩ := List.mem_filterMap.1 h
    obtain ⟨hm, -, -⟩ := keyOf?_eq_some.1 hk
    cases hl : n.isLexical with
    | false => exact .child hn hl hc hm
    | true =>
      cases n with
      | context => cases hp _ _ hn
      | contextValue key fallback =>
        obtain rfl : fallback = some c := Option.mem_toList.1 hc
        exact .fallback hn rfl hm
      | _ => cases hl
  · cases h

theorem Plain.transGen (hp : p.Plain) (h : TransGen p.References k k') :
    TransGen p.Step ⟨k.node, []⟩ ⟨k'.node, []⟩ :=
  TransGen.lift (fun k : CacheKey => (⟨k.node, []⟩ : Situation)) (fun _ _ hr => hp.step hr) _ _ h

end Plan

/-- What steps keep to that ask for nodes; `rel asked` is about steps that ask for the keys `asked`. -/
structure Asking where
  inv : Env → BuildState → Prop
  rel : List CacheKey → BuildState → BuildState → Prop
  refl : ∀ s, rel [] s s
  trans : ∀ {a b s s' s''}, rel a s s' → rel b s' s'' → rel (a ++ b) s s''
  mono : ∀ {env a s s'}, inv env s → rel a s s' → inv env s'
  loops : ∀ {env s} (l : List ActiveLoop), inv env s → inv { env with loops := l } s

namespace Asking

open Build

variable {A : Asking} {env : Env} {a b : List CacheKey} {α β : Type}

/-- What steps keep to that ask for nothing. -/
def law (A : Asking) : Law where
  inv := A.inv
  rel _ := A.rel []
  ends _ := True
  refl := A.refl
  trans h h' := A.trans h h'
  mono := A.mono
  loops := A.loops
  ordinary _ := trivial
  located _ := trivial

/-- The step asks for the keys `a`. -/
def Asks (A : Asking) (env : Env) (a : List CacheKey) (step : Build α) : Prop :=
  ∀ s, A.inv env s → Meets step env s (fun _ => True) fun _ s' => A.rel a s s'

namespace Asks

theorem of_keeps {step : Build α} (h : A.law.Keeps env step) : A.Asks env [] step := h

theorem pure (x : α) : A.Asks env [] (pure x) := fun s _ => A.refl s

theorem bind {step : Build α} {next : α → Build β} (h : A.Asks env a step)
    (hn : ∀ x, A.Asks env b (next x)) : A.Asks env (a ++ b) (step >>= next) := by
  intro s hs
  rw [meets_bind]
  refine (h s hs).imp fun x s' hr => ?_
  exact (hn x s' (A.mono hs hr)).imp fun _ _ hr' => A.trans hr hr'

/-- What asks for nothing may come first. -/
theorem after {step : Build α} {next : α → Build β} (h : A.law.Keeps env step)
    (hn : ∀ x, A.Asks env b (next x)) : A.Asks env b (step >>= next) := (of_keeps h).bind hn

/-- What asks for nothing may come last. -/
theorem before {step : Build α} {next : α → Build β} (h : A.Asks env a step)
    (hn : ∀ x, A.law.Keeps env (next x)) : A.Asks env a (step >>= next) := by
  have all := h.bind fun x => of_keeps (hn x)
  rwa [List.append_nil] at all

theorem map {step : Build α} (f : α → β) (h : A.Asks env a step) : A.Asks env a (f <$> step) := by
  intro s hs
  rw [meets_map]
  exact h s hs

theorem discard {step : Build α} (h : A.Asks env a step) : A.Asks env a (discard step) := by
  intro s hs
  rw [meets_discard]
  exact h s hs

theorem ite {c : Prop} [Decidable c] {step step' : Build α} (h : c → A.Asks env a step)
    (h' : ¬c → A.Asks env a step') : A.Asks env a (if c then step else step') := by
  split
  · next hc => exact h hc
  · next hc => exact h' hc

/-- What a check lets pass. -/
theorem check {c : Prop} [Decidable c] {cause : Cause} {next : Unit → Build α}
    (hn : ¬c → A.Asks env a (next ())) :
    A.Asks env a (if c then Build.fail cause >>= next else next ()) :=
  .ite (fun _ _ _ => trivial) hn

theorem located {id : NodeId} {step : Build α} (h : A.Asks env a step) :
    A.Asks env a (Build.located id step) :=
  fun s hs => (h s hs).located fun _ _ => trivial

theorem ofExcept {ε : Type} [Coe ε Cause] {r : Except ε α} {next : α → Build β}
    (h : ∀ x, r = .ok x → A.Asks env a (next x)) : A.Asks env a (Build.ofExcept r >>= next) := by
  intro s hs
  cases r with
  | ok x => exact h x rfl s hs
  | error e => trivial

theorem resolve {id : NodeId} {next : NodeId → Build α}
    (h : ∀ m, env.plan.resolve id = .ok m → A.Asks env a (next m)) :
    A.Asks env a (Build.resolve id >>= next) := by
  intro s hs
  rw [meets_bind, meets_resolve]
  cases hm : env.plan.resolve id with
  | ok m => exact h m hm s hs
  | error e => trivial

theorem node {id : NodeId} {next : Node → Build α}
    (h : ∀ n, env.plan.node id = .ok n → A.Asks env a (next n)) :
    A.Asks env a (Build.node id >>= next) := by
  intro s hs
  rw [meets_bind, meets_node]
  cases hn : env.plan.node id with
  | ok n => exact h n hn s hs
  | error e => trivial

theorem mapM {f : α → Build β} {xs : List α} {ask : α → List CacheKey}
    (h : ∀ x ∈ xs, A.Asks env (ask x) (f x)) : A.Asks env (xs.flatMap ask) (xs.mapM f) := by
  induction xs with
  | nil =>
    rw [List.mapM_nil]
    exact .pure []
  | cons x rest ih =>
    rw [List.mapM_cons, List.flatMap_cons]
    refine (h x (.head _)).bind fun y => ?_
    exact (ih fun x' hx' => h x' (.tail _ hx')).before fun ys => .pure _

theorem forM {f : α → Build PUnit} {xs : List α} {ask : α → List CacheKey}
    (h : ∀ x ∈ xs, A.Asks env (ask x) (f x)) : A.Asks env (xs.flatMap ask) (xs.forM f) := by
  induction xs with
  | nil => exact .pure _
  | cons x rest ih =>
    rw [List.flatMap_cons]
    exact (h x (.head _)).bind fun _ => ih fun x' hx' => h x' (.tail _ hx')

end Asks

/-- Steps at the roots ask for what the step at each root asks for. -/
theorem atRoots {p : Plan} {active : List Stage} {step : NodeId → Build Unit}
    {ask : Stage × NodeId → List CacheKey} {roots : List (Stage × NodeId)} {s s' : BuildState}
    (hs : ∀ r ∈ roots, A.inv (Env.root p active r.1) s)
    (h : ∀ r ∈ roots, A.Asks (Env.root p active r.1) (ask r) (step r.2))
    (hr : Build.atRoots p active step roots s = .ok s') : A.rel (roots.flatMap ask) s s' := by
  induction roots generalizing s with
  | nil =>
    cases hr
    exact A.refl _
  | cons r rest ih =>
    have first := h r (.head _) s (hs r (.head _))
    rw [Build.atRoots, Build.atRoot] at hr
    cases hd : step r.2 (Env.root p active r.1) s with
    | error f =>
      rw [hd] at hr
      cases hr
    | ok done =>
      rw [hd] at hr
      have hrel := first.post hd
      refine A.trans hrel (ih (fun r' hr' => ?_) (fun r' hr' => h r' (.tail _ hr')) hr)
      exact A.mono (hs r' (.tail _ hr')) hrel

end Asking

namespace Build

open Plan

variable {p : Plan} {rs : List (Stage × NodeId)} {s : BuildState} {k k' : CacheKey}

theorem reaches_of_below (hp : p.Plain) (h : p.Beneath (p.rootKeys rs) k) :
    p.Reaches (rs.map Prod.snd) ⟨k.node, []⟩ := by
  obtain ⟨a, ha, hg⟩ := h
  obtain ⟨r, hr, ha⟩ := List.mem_flatMap.1 ha
  obtain ⟨c, hc, ha⟩ := List.mem_filterMap.1 ha
  obtain rfl := List.mem_singleton.1 hc
  obtain ⟨hm, -, -⟩ := keyOf?_eq_some.1 ha
  have root : p.Reaches (rs.map Prod.snd) ⟨a.node, []⟩ := .root (List.mem_map_of_mem hr) hm
  refine root.trans ?_
  exact ReflTransGen.lift (fun k : CacheKey => (⟨k.node, []⟩ : Situation))
    (fun _ _ hr => hp.step hr) _ _ hg

/-- Without context nodes, analysis ends well only where evaluation never comes back. -/
theorem analyze_apart {active : List Stage}
    (hp : ∀ id inner values, p.node id ≠ .ok (.context inner values))
    (h : atRoots p active analyze rs (BuildState.start p) = .ok s) (σ : Situation)
    (hσ : p.Reaches (rs.map Prod.snd) σ) : ¬TransGen p.Step σ σ := by
  have surveyed := analyze_roots p rs True active (absurd trivial) (absurd trivial)
  rw [h] at surveyed
  have secured : ∀ r ∈ rs.map Prod.snd, Secured p (rs.map Prod.snd) r := by
    intro r hr
    obtain ⟨root, hroot, rfl⟩ := List.mem_map.1 hr
    exact surveyed.2 root hroot
  exact not_recurs_of_secured (steady_of_flat hp) secured σ hσ

/-- In a plain plan that was analysed no node is below itself. -/
theorem run_apart (hp : p.Plain) (h : run p rs = .ok s) (hk : p.Beneath (p.rootKeys rs) k)
    (hg : TransGen p.References k k') : k'.node ≠ k.node := by
  obtain ⟨s₀, hanalyze, -⟩ := of_run h
  intro he
  refine analyze_apart hp.contextless hanalyze ⟨k.node, []⟩ (reaches_of_below hp hk) ?_
  have steps := hp.transGen hg
  rwa [he] at steps

end Build

/-! ### What analysis counts -/

namespace NodeCache

variable {c c' : NodeCache} {k : CacheKey} {scope : ScopeId} {node : NodeId} {stage : Option Stage}

/-- How often the node of a key was referred to. -/
def uses (c : NodeCache) (k : CacheKey) : Nat := ((c.records.get? k).map CacheRecord.usage).getD 0

theorem usage_eq : c.usage scope node stage = c.uses (c.key scope node stage) := by
  unfold usage uses get?
  cases c.records.get? (c.key scope node stage) <;> rfl

theorem counted_iff : c.Counted k ↔ 0 < c.uses k := by
  unfold Counted uses
  cases c.records.get? k with
  | none => simp
  | some r => simp

theorem uses_of_records (h : c'.records = c.records) : c'.uses k = c.uses k := by
  unfold uses
  rw [h]

theorem uses_update {f : CacheRecord → CacheRecord} : (c.update scope node stage f).uses k =
    if k = c.key scope node stage then (f ((c.get? scope node stage).getD ⟨0, none⟩)).usage
    else c.uses k := by
  unfold uses
  show (((c.records.put _ _).get? k).map _).getD 0 = _
  rw [OrderedMap.get?_put]
  split <;> rfl

theorem uses_count : (c.count scope node stage).uses k =
    c.uses k + [c.key scope node stage].count k := by
  unfold count
  rw [uses_update]
  by_cases h : k = c.key scope node stage
  · subst h
    rw [if_pos rfl, List.count_singleton_self, ← usage_eq]
    unfold usage
    cases c.get? scope node stage <;> rfl
  · rw [if_neg h, List.count_eq_zero.2 (by simpa using h), Nat.add_zero]

theorem uses_bind {b : BoundName} : (c.bind scope node stage b).uses k = c.uses k := by
  unfold bind
  rw [uses_update]
  split
  · next h =>
    rw [h, ← usage_eq]
    unfold usage
    cases c.get? scope node stage <;> rfl
  · rfl

end NodeCache

namespace BuildState

variable {p : Plan} {s s' s'' : BuildState} {asked asked' : List CacheKey} {k : CacheKey}

/-- Analysis between two states asks for the keys `asked` and counts the keys `new` first: these are
below what is asked for, and whatever they refer to is counted. -/
structure Tallied (p : Plan) (asked new : List CacheKey) (s s' : BuildState) : Prop where
  advances : s.Advances p s'
  nodup : new.Nodup
  fresh : ∀ k ∈ new, s.cache.uses k = 0 ∧ p.Beneath asked k
  grown : ∀ k, 0 < s'.cache.uses k ↔ 0 < s.cache.uses k ∨ k ∈ new
  count : ∀ k, s'.cache.uses k =
    s.cache.uses k + asked.count k + (new.flatMap p.references).count k

/-- Analysis between two states asks for some keys. -/
def Tallies (p : Plan) (asked : List CacheKey) (s s' : BuildState) : Prop :=
  ∃ new, s.Tallied p asked new s'

namespace Tallied

variable {new new' : List CacheKey}

/-- A change that counts nothing. -/
theorem of_uses (ha : s.Advances p s') (hu : ∀ k, s'.cache.uses k = s.cache.uses k) :
    s.Tallied p [] [] s' :=
  ⟨ha, List.nodup_nil, fun k hk => (nomatch hk), fun k => by simp [hu], fun k => by simp [hu]⟩

theorem refl (s : BuildState) : s.Tallied p [] [] s := of_uses (.refl s) fun _ => rfl

theorem trans (h : s.Tallied p asked new s') (h' : s'.Tallied p asked' new' s'') :
    s.Tallied p (asked ++ asked') (new ++ new') s'' := by
  refine ⟨h.advances.trans h'.advances, ?_, ?_, ?_, ?_⟩
  · refine List.nodup_append'.2 ⟨h.nodup, h'.nodup, fun k hk hk' => ?_⟩
    have counted := (h.grown k).2 (.inr hk)
    rw [(h'.fresh k hk').1] at counted
    exact Nat.lt_irrefl 0 counted
  · intro k hk
    rcases List.mem_append.1 hk with hk | hk
    · exact ⟨(h.fresh k hk).1, (h.fresh k hk).2.mono (List.subset_append_left _ _)⟩
    · refine ⟨?_, (h'.fresh k hk).2.mono (List.subset_append_right _ _)⟩
      have before := h.count k
      rw [(h'.fresh k hk).1] at before
      omega
  · intro k
    rw [h'.grown, h.grown, List.mem_append, or_assoc]
  · intro k
    rw [h'.count, h.count, List.flatMap_append, List.count_append, List.count_append]
    omega

/-- A reference to a key that was counted before. -/
theorem again {env : Env} {id : NodeId} (hc : 0 < s.cache.uses (Build.keyAt env s id)) :
    s.Tallied p [Build.keyAt env s id] [] (s.counting env id) := by
  have count : ∀ k, (s.counting env id).cache.uses k =
      s.cache.uses k + [Build.keyAt env s id].count k := fun _ => NodeCache.uses_count
  refine ⟨.of_eq rfl rfl rfl, List.nodup_nil, fun k hk => (nomatch hk), fun k => ?_, fun k => ?_⟩
  · rw [count, List.count_singleton]
    split
    · next he =>
      obtain rfl := eq_of_beq he
      simp [hc]
    · simp
  · rw [count]
    rfl

/-- A reference to a key that was not counted before, and the walk below it. -/
theorem first {env : Env} {id : NodeId} (hc : s.cache.uses (Build.keyAt env s id) = 0)
    (h : (s.counting env id).Tallied p (p.references (Build.keyAt env s id)) new s') :
    s.Tallied p [Build.keyAt env s id] (Build.keyAt env s id :: new) s' := by
  have count : ∀ k, (s.counting env id).cache.uses k =
      s.cache.uses k + [Build.keyAt env s id].count k := fun _ => NodeCache.uses_count
  have start : s.Advances p (s.counting env id) := .of_eq rfl rfl rfl
  generalize Build.keyAt env s id = own at *
  have counted : ∀ k, 0 < (s.counting env id).cache.uses k ↔ 0 < s.cache.uses k ∨ k = own := by
    intro k
    rw [count, List.count_singleton]
    split
    · next he =>
      obtain rfl := eq_of_beq he
      simp
    · next he =>
      have other : k ≠ own := fun h => he (by simp [h])
      simp [other]
  refine ⟨start.trans h.advances, ?_, ?_, ?_, ?_⟩
  · refine List.nodup_cons.2 ⟨fun hk => ?_, h.nodup⟩
    have before := (counted own).2 (.inr rfl)
    rw [(h.fresh own hk).1] at before
    exact Nat.lt_irrefl 0 before
  · intro k hk
    rcases List.mem_cons.1 hk with rfl | hk
    · exact ⟨hc, .of_mem (.head _)⟩
    · obtain ⟨none, below⟩ := h.fresh k hk
      refine ⟨?_, own, .head _, below.transGen.to_reflTransGen⟩
      have := count k
      omega
  · intro k
    rw [h.grown, counted, List.mem_cons, or_assoc]
  · intro k
    rw [h.count, count, List.flatMap_cons, List.count_append]
    omega

end Tallied

namespace Tallies

theorem refl (s : BuildState) : s.Tallies p [] s := ⟨[], .refl s⟩

theorem trans (h : s.Tallies p asked s') (h' : s'.Tallies p asked' s'') :
    s.Tallies p (asked ++ asked') s'' := by
  obtain ⟨new, h⟩ := h
  obtain ⟨new', h'⟩ := h'
  exact ⟨new ++ new', h.trans h'⟩

theorem advances (h : s.Tallies p asked s') : s.Advances p s' := by
  obtain ⟨_, tallied⟩ := h
  exact tallied.advances

/-- Where nothing is asked for nothing is counted first. -/
theorem nothing (h : s.Tallies p [] s') : s.Tallied p [] [] s' := by
  obtain ⟨new, tallied⟩ := h
  cases new with
  | nil => exact tallied
  | cons k new =>
    obtain ⟨_, hk, -⟩ := (tallied.fresh k (.head _)).2
    cases hk

theorem of_cache (ha : s.Advances p s') (hc : s'.cache.records = s.cache.records) :
    s.Tallies p [] s' := ⟨[], .of_uses ha fun _ => NodeCache.uses_of_records hc⟩

end Tallies

end BuildState

/-- What analysis keeps to in a plain plan. -/
def Asking.tallying (p : Plan) : Asking where
  inv env s := Placed p .root env s ∧ env.frames = []
  rel := BuildState.Tallies p
  refl := .refl
  trans := .trans
  mono hi hr := ⟨hi.1.mono hr.advances, hi.2⟩
  loops l hi := ⟨hi.1.loops l, hi.2⟩

namespace Build

open Law BuildState

variable {p : Plan} {env : Env} {id : NodeId} {n : Node} {rs : List (Stage × NodeId)}
  {active : List Stage} {s : BuildState} {analyze' : NodeId → Build Unit}

theorem tallying_unmoved : (Asking.tallying p).law.Unmoved where
  ends _ := trivial
  rel _ h := .of_cache (.of_still h) (congrArg (NodeCache.records ∘ Still.cache) h)

theorem enterNode_tallies (hn : n.shifts = false) :
    (Asking.tallying p).law.Keeps env (enterNode id n) :=
  .enterNode tallying_unmoved.tabular
    (fun f _ _ => tallying_unmoved.keeps (registerFunction_still f)) hn

/-- Below a node analysis asks for what the node refers to. -/
theorem analyzeNode_tallies (hp : p.Plain) (hn : p.node id = .ok n)
    (h : ∀ env c, (Asking.tallying p).Asks env (p.keysOf (some env.stage) [c]) (analyze' c)) :
    (Asking.tallying p).Asks env (p.keysOf (n.stageBelow (some env.stage)) n.children)
      (analyzeNode analyze' id n) := by
  have walk : (Asking.tallying p).Asks env (p.keysOf (some env.stage) n.children)
      (n.children.forM analyze') := by
    rw [Plan.keysOf_flatMap]
    exact .forM fun c _ => h env c
  cases n with
  | varying source name interpolation sampling =>
    intro s hi
    unfold analyzeNode
    rw [meets_bind, meets_discard]
    refine (registerVarying_still hn hi.1.regular.varyings).mono (fun _ h => h) fun v s' hr => ?_
    have entered : s.Tallies p [] s' :=
      .of_cache (.of_entering hr.1) (congrArg (NodeCache.records ∘ Still.cache) hr.1.1)
    rw [meets_inStage]
    have hi' := (Asking.tallying p).mono hi entered
    have inside : (Asking.tallying p).inv (within env .vertex) s' := by
      refine ⟨hi'.1.within .vertex, ?_⟩
      unfold within
      split
      · exact hi'.2
      · exact hi'.2
    have source' := h (within env .vertex) source s' inside
    rw [stage_within] at source'
    exact source'.imp fun _ s'' hq => entered.trans hq
  | cache inner shares =>
    obtain rfl : shares = true := by
      cases shares
      · cases hp id _ hn
      · rfl
    intro s hi
    unfold analyzeNode
    rw [meets_bind, meets_cacheScope, meets_inScope]
    obtain ⟨advances, placed⟩ := hi.1.cacheScope hn rfl
    have grown : s.Tallies p [] { s with cache := (s.cache.scopeFor env.scope id true).2 } :=
      .of_cache advances NodeCache.records_scopeFor
    exact (h _ inner _ ⟨placed, hi.2⟩).imp fun _ _ hq => grown.trans hq
  | contextValue key fallback =>
    intro s hi
    show Meets (withContextValue key fallback analyze') env s _ _
    have nothing : Frame.lookup? key env.frames = none := by
      rw [hi.2]
      rfl
    rw [meets_withContextValue, nothing]
    cases fallback with
    | none => trivial
    | some c => exact h env c s hi
  | context => cases hp id _ hn
  | _ =>
    rw [analyzeNode_eq rfl]
    exact .after (enterNode_tallies rfl) fun _ => walk

/-- Analysis asks for the node that it is called for. -/
theorem analyzeIn_tallies (hp : p.Plain) (fuel : Nat) (env : Env) (id : NodeId) :
    (Asking.tallying p).Asks env (p.keysOf (some env.stage) [id]) (analyzeIn fuel id) := by
  induction fuel generalizing env id with
  | zero => exact fun _ _ => trivial
  | succ fuel ih =>
    intro s hi
    obtain rfl := hi.1.plan
    refine meets_analyzeIn (L := (Asking.tallying env.plan).law) (fun _ _ _ => trivial) ?_ ?_
    · intro m hm _ hc
      rw [Plan.keysOf_singleton hm, ← hi.1.keyAt]
      exact ⟨[], .again (NodeCache.counted_iff.1 hc)⟩
    · intro m n hm _ hc hn
      have own : keyAt env s m = ⟨.root, m, some env.stage⟩ := hi.1.keyAt
      rw [Plan.keysOf_singleton hm, ← own]
      let deeper : Env := { env with path := m :: env.path }
      have start : s.Advances env.plan (s.counting env m) := .of_eq rfl rfl rfl
      have inside : (Asking.tallying env.plan).inv deeper (s.counting env m) :=
        ⟨(hi.1.mono start).of_scope rfl rfl, hi.2⟩
      refine (analyzeNode_tallies hp hn ih _ inside).imp fun _ s' hr => ?_
      obtain ⟨new, tallied⟩ := hr
      refine ⟨keyAt env s m :: new, .first ?_ ?_⟩
      · rw [NodeCache.counted_iff] at hc
        omega
      · have hn' : env.plan.node (keyAt env s m).node = .ok n := hn
        rw [Plan.references_of_node hn', own]
        exact tallied

/-- Analysis of the roots of a plain plan counts the roots and whatever counted keys refer to. -/
theorem analyze_tallies (hp : p.Plain)
    (h : atRoots p active analyze rs (BuildState.start p) = .ok s) :
    ∃ counted : List CacheKey, counted.Nodup ∧ (∀ k, 0 < s.cache.uses k ↔ k ∈ counted) ∧
      (∀ k ∈ counted, p.Beneath (p.rootKeys rs) k) ∧
      ∀ k, s.cache.uses k = (p.rootKeys rs).count k + (counted.flatMap p.references).count k := by
  have start : ∀ r ∈ rs, (Asking.tallying p).inv (Env.root p active r.1) (BuildState.start p) :=
    fun r _ => ⟨.root (scoped_start p) active r.1, rfl⟩
  have walk : ∀ r ∈ rs, (Asking.tallying p).Asks (Env.root p active r.1)
      (p.keysOf (some r.1) [r.2]) (analyze r.2) := by
    intro r _ s hi
    unfold analyze
    rw [meets_bind, meets_read]
    exact analyzeIn_tallies hp _ _ _ s hi
  obtain ⟨counted, tallied⟩ := Asking.atRoots start walk h
  have none : ∀ k, (BuildState.start p).cache.uses k = 0 := fun _ => rfl
  refine ⟨counted, tallied.nodup, fun k => ?_, fun k hk => (tallied.fresh k hk).2, fun k => ?_⟩
  · rw [tallied.grown, none]
    simp
  · rw [tallied.count, none, Nat.zero_add]
    rfl

end Build

end ShaderGraph
