import Mathlib.Data.Set.Card
import ShaderGraph.Proofs.Asking

/-!
# How often nodes are counted

In a plan without varyings, contexts and cache nodes (`Plan.Unshifted`) all that is below the root of
a stage is analysed in one scope and one stage. Then a node is counted once for each place below the
root at which it is referred to (`Plan.referencesTo`), and the root once more.

`visitIn` walks as analysis does and lists the nodes below which it walks on; without the list it is
analysis (`analyze_eq`). The nodes of the list are the ones that the references that were counted
come from (`visitIn_tallied`), and they are the nodes that the root leads to, each of them once.
-/

namespace ShaderGraph

open Relation

namespace Plan

variable {p : Plan} {root m r x : NodeId} {i : Nat} {n : Node} {stage : Stage} {visited : List NodeId}

/-- All that the nodes of a plan refer to is analysed under the same contexts, in the same scope and
in the same stage as they are. -/
def Unshifted (p : Plan) : Prop := ∀ id n, p.node id = .ok n → n.shifts = false

theorem Unshifted.of_all (h : (p.graph.entries.toList.map Entry.node).all (!·.shifts) = true) :
    p.Unshifted := by
  intro id n hn
  simpa using List.all_eq_true.1 h n (mem_of_node hn)

theorem Unshifted.contextless (hp : p.Unshifted) (id inner : NodeId) (values : List (String × NodeId)) :
    p.node id ≠ .ok (.context inner values) := by
  intro hn
  cases hp id _ hn

/-- What a node has at a position of its children is built as another node. -/
def Links (p : Plan) (m : NodeId) (i : Nat) (x : NodeId) : Prop :=
  ∃ n c, p.node m = .ok n ∧ n.children[i]? = some c ∧ p.resolve c = .ok x

/-- A root leads to a node that is built. -/
def Reachable (p : Plan) (root m : NodeId) : Prop :=
  ∃ r, p.resolve root = .ok r ∧ ReflTransGen p.Refers r m

/-- The places below a root at which a node is referred to: the node that refers to it, and the
position among the children of that node. -/
def referencesTo (p : Plan) (root x : NodeId) : Set (NodeId × Nat) :=
  {l | p.Reachable root l.1 ∧ p.Links l.1 l.2 x}

theorem Unshifted.step (hp : p.Unshifted) (h : p.Refers m x) : p.Step ⟨m, []⟩ ⟨x, []⟩ := by
  obtain ⟨n, c, hn, hc, hx⟩ := h
  refine .child hn ?_ hc hx
  have shifts := hp m n hn
  cases n <;> first | rfl | cases shifts

/-! ### Keys of a stage -/

/-- Where the record of a node is kept that is built for a stage. -/
def stageKey (stage : Stage) (m : NodeId) : CacheKey := ⟨.root, m, some stage⟩

theorem stageKey_injective : Function.Injective (stageKey stage) :=
  fun _ _ h => congrArg CacheKey.node h

theorem mem_map_stageKey : stageKey stage m ∈ visited.map (stageKey stage) ↔ m ∈ visited :=
  List.mem_map_of_injective stageKey_injective

theorem Unshifted.references_stageKey (hp : p.Unshifted) (hn : p.node m = .ok n) :
    p.references (stageKey stage m) = p.keysOf (some stage) n.children := by
  rw [references_of_node (k := stageKey stage m) hn, NodeOf.stageBelow_of_shifts (hp m n hn)]
  rfl

theorem keyOf?_eq_stageKey {c : NodeId} :
    p.keyOf? (some stage) c = some (stageKey stage x) ↔ p.resolve c = .ok x := by
  rw [keyOf?_eq_some]
  exact ⟨And.left, fun h => ⟨h, rfl, rfl⟩⟩

/-- A reference between keys is one between their nodes. -/
theorem refers_of_references {k k' : CacheKey} (h : p.References k k') : p.Refers k.node k'.node := by
  unfold References references at h
  split at h
  · next n hn =>
    obtain ⟨c, hc, hk⟩ := List.mem_filterMap.1 h
    exact ⟨n, c, hn, hc, (keyOf?_eq_some.1 hk).1⟩
  · cases h

theorem Unshifted.references (hp : p.Unshifted) (h : p.Refers m x) :
    p.References (stageKey stage m) (stageKey stage x) := by
  obtain ⟨n, c, hn, hc, hx⟩ := h
  unfold References
  rw [hp.references_stageKey hn]
  exact List.mem_filterMap.2 ⟨c, hc, keyOf?_eq_stageKey.2 hx⟩

/-! ### Positions -/

/-- The positions at which a node refers to another. -/
def positions (p : Plan) (x m : NodeId) : List Nat :=
  (((p.node m).toOption.elim [] NodeOf.children).map fun c => (p.resolve c).toOption).idxsOf (some x)

theorem positions_of_node (hn : p.node m = .ok n) : p.positions x m =
    (n.children.map fun c => (p.resolve c).toOption).idxsOf (some x) := by
  unfold positions
  rw [hn]
  rfl

theorem mem_positions : i ∈ p.positions x m ↔ p.Links m i x := by
  unfold positions Links
  cases p.node m with
  | error e =>
    constructor
    · rintro ⟨⟩
    · rintro ⟨n, c, ⟨⟩, -⟩
  | ok n =>
    show i ∈ (n.children.map fun c => (p.resolve c).toOption).idxsOf (some x) ↔ _
    rw [List.mem_idxsOf_iff_exists_getElem_pos]
    constructor
    · rintro ⟨hi, hx⟩
      rw [List.length_map] at hi
      rw [List.getElem_map] at hx
      exact ⟨n, n.children[i], rfl, List.getElem?_eq_getElem hi, ok_of_toOption (eq_of_beq hx)⟩
    · rintro ⟨n', c, ⟨⟩, hc, hx⟩
      obtain ⟨hi, rfl⟩ := List.getElem?_eq_some_iff.1 hc
      refine ⟨by rwa [List.length_map], ?_⟩
      rw [List.getElem_map, hx]
      exact beq_self_eq_true _

/-- A key refers to another once for each position. -/
theorem Unshifted.count_references (hp : p.Unshifted) (x m : NodeId) :
    (p.references (stageKey stage m)).count (stageKey stage x) = (p.positions x m).length := by
  cases hn : p.node m with
  | error e =>
    unfold Plan.references positions stageKey
    rw [hn]
    rfl
  | ok n =>
    have same : ∀ c, (p.keyOf? (some stage) c == some (stageKey stage x)) =
        ((p.resolve c).toOption == some x) := by
      intro c
      rw [Bool.eq_iff_iff, beq_iff_eq, beq_iff_eq, keyOf?_eq_stageKey]
      exact ⟨fun h => by rw [h]; rfl, ok_of_toOption⟩
    rw [hp.references_stageKey hn, positions_of_node hn, List.length_idxsOf, keysOf,
      List.count_filterMap, List.count, List.countP_map]
    exact List.countP_congr fun c _ => by simp [same]

/-- The places at which some nodes refer to a node. -/
def places (p : Plan) (visited : List NodeId) (x : NodeId) : List (NodeId × Nat) :=
  visited.flatMap fun m => (p.positions x m).map (Prod.mk m)

theorem mem_places {l : NodeId × Nat} :
    l ∈ p.places visited x ↔ l.1 ∈ visited ∧ p.Links l.1 l.2 x := by
  unfold places
  rw [List.mem_flatMap]
  constructor
  · rintro ⟨m, hm, hl⟩
    obtain ⟨i, hi, rfl⟩ := List.mem_map.1 hl
    exact ⟨hm, mem_positions.1 hi⟩
  · rintro ⟨hm, hl⟩
    exact ⟨l.1, hm, List.mem_map.2 ⟨l.2, mem_positions.2 hl, rfl⟩⟩

theorem nodup_places (h : visited.Nodup) : (p.places visited x).Nodup := by
  refine List.nodup_flatMap.2 ⟨fun m _ => ?_, h.imp fun {a b} ne => ?_⟩
  · exact List.nodup_idxsOf.map fun _ _ e => congrArg Prod.snd e
  · intro l hl hl'
    obtain ⟨_, -, rfl⟩ := List.mem_map.1 hl
    obtain ⟨_, -, he⟩ := List.mem_map.1 hl'
    exact ne (congrArg Prod.fst he).symm

theorem Unshifted.count_places (hp : p.Unshifted) :
    ((visited.map (stageKey stage)).flatMap p.references).count (stageKey stage x) =
      (p.places visited x).length := by
  unfold places
  induction visited with
  | nil => rfl
  | cons m rest ih =>
    rw [List.map_cons, List.flatMap_cons, List.flatMap_cons, List.count_append, List.length_append,
      List.length_map, ih, hp.count_references]

/-- Where each node that the root leads to is listed once, the places at which a node is referred to
are as many as listed. -/
theorem ncard_referencesTo (nodup : visited.Nodup) (h : ∀ m, m ∈ visited ↔ p.Reachable root m) :
    (p.referencesTo root x).Finite ∧ (p.referencesTo root x).ncard = (p.places visited x).length := by
  have all : p.referencesTo root x = ↑(p.places visited x).toFinset := by
    ext l
    rw [List.coe_toFinset, Set.mem_ofPred_eq, mem_places, h]
    rfl
  rw [all, Set.ncard_coe_finset, List.toFinset_card_of_nodup (nodup_places nodup)]
  exact ⟨Finset.finite_toSet _, rfl⟩

end Plan

namespace Build

open BuildState Plan

variable {p : Plan} {env : Env} {id m root : NodeId} {n : Node} {s s' : BuildState} {stage : Stage}
  {fuel : Nat} {α β : Type}

/-! ### Listing what is walked over -/

/-- Walks over a node and all that it refers to, as `analyzeIn` does where nothing shifts; lists the
nodes below which it walks on. -/
def visitIn : Nat → NodeId → Build (List NodeId)
  | 0, _ => exhaust
  | fuel + 1, id => do
    let id ← resolve id
    if (← read).path.contains id then located id (fail (GraphError.cycle id))
    if (← countReference id) = 1 then
      below id do
        let n ← node id
        enterNode id n
        let visited ← n.children.mapM (visitIn fuel)
        return id :: visited.flatten
    else return []

/-- Walks over a node and all that it refers to, and lists the nodes below which it walks on. -/
def visit (id : NodeId) : Build (List NodeId) := do
  visitIn ((← read).plan.graph.size + 2) id

/-- A step does what another one does, whose value is not looked at. -/
def Erases (env : Env) (step : Build Unit) (traced : Build β) : Prop :=
  ∀ s, step env s = (traced env s).map fun r => ((), r.2)

namespace Erases

theorem bind {step : Build α} {next : α → Build Unit} {next' : α → Build β}
    (h : ∀ x, Erases env (next x) (next' x)) : Erases env (step >>= next) (step >>= next') := by
  intro s
  rw [bind_run, bind_run]
  cases step env s with
  | error f => rfl
  | ok done => exact h done.1 done.2

theorem ite {c : Prop} [Decidable c] {a b : Build Unit} {a' b' : Build β} (h : Erases env a a')
    (h' : Erases env b b') : Erases env (if c then a else b) (if c then a' else b') := by
  split
  · exact h
  · exact h'

theorem node {next : Node → Build Unit} {next' : Node → Build β}
    (h : ∀ n, env.plan.node id = .ok n → Erases env (next n) (next' n)) :
    Erases env (Build.node id >>= next) (Build.node id >>= next') := by
  intro s
  rw [bind_run, bind_run]
  cases hn : env.plan.node id with
  | ok n =>
    have run : Build.node id env s = .ok (n, s) := by
      show ofExcept (env.plan.node id) env s = _
      rw [hn]
      rfl
    rw [run]
    exact h n hn s
  | error e =>
    have run : Build.node id env s = .error (.refused (.ofCause e)) := by
      show ofExcept (env.plan.node id) env s = _
      rw [hn]
      rfl
    rw [run]
    rfl

theorem below {step : Build Unit} {traced : Build β}
    (h : Erases { env with path := id :: env.path } step traced) :
    Erases env (Build.below id step) (Build.below id traced) := by
  intro s
  show Build.located id step { env with path := id :: env.path } s =
    (Build.located id traced { env with path := id :: env.path } s).map _
  unfold Build.located
  rw [h s]
  cases traced { env with path := id :: env.path } s <;> rfl

theorem value {step : Build Unit} {traced : Build α} {f : α → β} (h : Erases env step traced) :
    Erases env step (traced >>= fun x => pure (f x)) := by
  intro s
  rw [h, bind_run]
  cases traced env s <;> rfl

theorem forM {f : α → Build Unit} {g : α → Build β} {xs : List α} (h : ∀ x, Erases env (f x) (g x)) :
    Erases env (xs.forM f) (xs.mapM g) := by
  induction xs with
  | nil => exact fun _ => rfl
  | cons x xs ih =>
    intro s
    rw [List.mapM_cons]
    show (f x >>= fun _ => xs.forM f) env s = _
    rw [bind_run, bind_run, h x s]
    cases g x env s with
    | error e => rfl
    | ok done => exact ih.value done.2

end Erases

/-- Where nothing shifts, analysis is the walk without its list. -/
theorem analyzeIn_eq (hp : env.plan.Unshifted) (fuel : Nat) (id : NodeId) :
    Erases env (analyzeIn fuel id) (visitIn fuel id) := by
  induction fuel generalizing env id with
  | zero => exact fun _ => rfl
  | succ fuel ih =>
    unfold analyzeIn visitIn
    refine .bind fun m => .bind fun _ => ?_
    have walk : Erases env (below m do analyzeNode (analyzeIn fuel) m (← Build.node m))
        (below m do
          let n ← Build.node m
          enterNode m n
          let visited ← n.children.mapM (visitIn fuel)
          return m :: visited.flatten) := by
      refine .below (.node fun n hn => ?_)
      rw [analyzeNode_eq (hp m n hn)]
      exact .bind fun _ => .value (.forM fun c => @ih { env with path := m :: env.path } hp c)
    have rest : Erases env
        (do if (← countReference m) = 1 then
              below m do analyzeNode (analyzeIn fuel) m (← Build.node m))
        (do if (← countReference m) = 1 then
              below m do
                let n ← Build.node m
                enterNode m n
                let visited ← n.children.mapM (visitIn fuel)
                return m :: visited.flatten
            else return []) := .bind fun _ => .ite walk fun _ => rfl
    exact .ite (.bind fun _ => rest) rest

theorem analyze_eq (hp : env.plan.Unshifted) (id : NodeId) :
    Erases env (analyze id) (visit id) := by
  intro s
  show analyzeIn (env.plan.graph.size + 2) id env s =
    (visitIn (env.plan.graph.size + 2) id env s).map _
  exact analyzeIn_eq hp _ id s

/-! ### What the listed nodes refer to -/

/-- The walk over some nodes, one after the other. -/
theorem mapM_tallied {f : NodeId → Build (List NodeId)} {env : Env} {cs : List NodeId}
    (h : ∀ c s, (Asking.tallying p).inv env s → Meets (f c) env s (fun _ => True) fun visited s' =>
      s.Tallied p (p.keysOf (some env.stage) [c]) (visited.map (stageKey env.stage)) s')
    (hi : (Asking.tallying p).inv env s) :
    Meets (cs.mapM f) env s (fun _ => True) fun visited s' =>
      s.Tallied p (p.keysOf (some env.stage) cs) (visited.flatten.map (stageKey env.stage)) s' := by
  induction cs generalizing s with
  | nil => exact .refl s
  | cons c cs ih =>
    rw [List.mapM_cons, meets_bind, keysOf_cons]
    refine (h c s hi).imp fun first s₁ tallied => ?_
    rw [meets_bind]
    refine (ih ((Asking.tallying p).mono hi ⟨_, tallied⟩)).imp fun rest s₂ tallied' => ?_
    rw [meets_pure, List.flatten_cons, List.map_append]
    exact tallied.trans tallied'

/-- The walk counts the node that it is called for and what the listed nodes refer to. -/
theorem visitIn_tallied (hp : p.Unshifted) (fuel : Nat) (env : Env) (id : NodeId) (s : BuildState)
    (hi : (Asking.tallying p).inv env s) :
    Meets (visitIn fuel id) env s (fun _ => True) fun visited s' =>
      s.Tallied p (p.keysOf (some env.stage) [id]) (visited.map (stageKey env.stage)) s' := by
  induction fuel generalizing env id s with
  | zero => trivial
  | succ fuel ih =>
    obtain rfl := hi.1.plan
    unfold visitIn
    rw [meets_bind, meets_resolve]
    cases hm : env.plan.resolve id with
    | error e => trivial
    | ok m =>
      have own : keyAt env s m = stageKey env.stage m := hi.1.keyAt
      have asked : env.plan.keysOf (some env.stage) [id] = [keyAt env s m] := by
        rw [own, keysOf_singleton hm]
        rfl
      rw [asked]
      show Meets (read >>= _) env s _ _
      rw [meets_bind, meets_read, meets_ite]
      refine ⟨fun _ => trivial, fun _ => meets_countReference.2 ⟨fun new => ?_, fun met => ?_⟩⟩
      · let deeper : Env := { env with path := m :: env.path }
        have start : s.Advances env.plan (s.counting env m) := .of_eq rfl rfl rfl
        have inside : (Asking.tallying env.plan).inv deeper (s.counting env m) :=
          ⟨(hi.1.mono start).of_scope rfl rfl, hi.2⟩
        unfold below
        rw [meets_withReader, meets_located, meets_bind, meets_node]
        cases hn : env.plan.node m with
        | error e => trivial
        | ok n =>
          show Meets (enterNode m n >>= _) deeper (s.counting env m) _ _
          rw [meets_bind]
          refine (enterNode_tallies (hp m n hn) _ inside).imp fun _ s₁ entered => ?_
          rw [meets_bind]
          refine (mapM_tallied (ih deeper) ((Asking.tallying env.plan).mono inside entered)).imp
            fun visited s₂ tallied => ?_
          rw [meets_pure, List.map_cons, ← own]
          refine .first ?_ ?_
          · rw [NodeCache.counted_iff] at new
            omega
          · rw [own, hp.references_stageKey hn]
            exact entered.nothing.trans tallied
      · exact .again (NodeCache.counted_iff.1 met)

/-! ### A whole analysis -/

section Whole

variable {r : NodeId} {visited : List NodeId}

/-- The listed nodes are those that the root leads to. -/
theorem mem_visited_iff (hp : p.Unshifted) (hr : p.resolve root = .ok r)
    (ht : (BuildState.start p).Tallied p [stageKey stage r] (visited.map (stageKey stage)) s) :
    m ∈ visited ↔ p.Reachable root m := by
  have counted : ∀ {x}, 0 < s.cache.uses (stageKey stage x) → x ∈ visited := fun {x} h =>
    mem_map_stageKey.1 (((ht.grown (stageKey stage x)).1 h).resolve_left (Nat.lt_irrefl 0))
  constructor
  · intro hm
    obtain ⟨-, own, hown, below⟩ := ht.fresh _ (List.mem_map_of_mem hm)
    obtain rfl := List.mem_singleton.1 hown
    exact ⟨r, hr, ReflTransGen.lift CacheKey.node (fun _ _ h => refers_of_references h) _ _ below⟩
  · rintro ⟨r', hr', leads⟩
    cases hr.symm.trans hr'
    induction leads with
    | refl =>
      refine counted ?_
      rw [ht.count, List.count_singleton_self]
      omega
    | @tail m x _ refers listed =>
      have mem : stageKey stage x ∈ (visited.map (stageKey stage)).flatMap p.references :=
        List.mem_flatMap.2 ⟨_, List.mem_map_of_mem listed, hp.references refers⟩
      refine counted ?_
      rw [ht.count]
      have := List.count_pos_iff.2 mem
      omega

/-- A walk that ends well starts at a node. -/
theorem resolve_of_visit {visited : List NodeId}
    (h : visitIn (fuel + 1) id env s = .ok (visited, s')) : ∃ r, env.plan.resolve id = .ok r := by
  unfold visitIn at h
  obtain ⟨r, hr, -⟩ := of_ofExcept (r := env.plan.resolve id) h
  exact ⟨r, hr⟩

/-- The walk of a whole stage. -/
theorem visit_of_analyze (hp : p.Unshifted)
    (h : atRoots p [stage] analyze [(stage, root)] (BuildState.start p) = .ok s) :
    ∃ visited, visit root (Env.root p [stage] stage) (BuildState.start p) = .ok (visited, s) := by
  have analysed : analyze root (Env.root p [stage] stage) (BuildState.start p) = .ok ((), s) := by
    rw [atRoots, atRoot] at h
    cases ha : analyze root (Env.root p [stage] stage) (BuildState.start p) with
    | error f =>
      rw [ha] at h
      cases h
    | ok done =>
      rw [ha] at h
      cases h
      rfl
  rw [analyze_eq hp root] at analysed
  cases hv : visit root (Env.root p [stage] stage) (BuildState.start p) with
  | error f =>
    rw [hv] at analysed
    cases analysed
  | ok done =>
    rw [hv] at analysed
    cases analysed
    exact ⟨_, rfl⟩

/-- In a stage that was analysed a node is counted once for each place below the root at which it is
referred to, and the root once more; the walk goes on below each node that the root leads to exactly
once; and no node is below itself. -/
theorem usage_exact (hp : p.Unshifted)
    (h : atRoots p [stage] analyze [(stage, root)] (BuildState.start p) = .ok s) :
    ∃ r visited, p.resolve root = .ok r ∧
      visit root (Env.root p [stage] stage) (BuildState.start p) = .ok (visited, s) ∧
      visited.Nodup ∧ (∀ m, m ∈ visited ↔ p.Reachable root m) ∧
      (∀ x, (p.referencesTo root x).Finite ∧ s.cache.usage .root x (some stage) =
        (p.referencesTo root x).ncard + if x = r then 1 else 0) ∧
      (∀ x, ¬p.Reachable root x → s.cache.usage .root x (some stage) = 0) ∧
      ∀ m, p.Reachable root m → ¬TransGen p.Refers m m := by
  obtain ⟨visited, hv⟩ := visit_of_analyze hp h
  obtain ⟨r, hr⟩ := resolve_of_visit hv
  have asked : p.keysOf (some stage) [root] = [stageKey stage r] := keysOf_singleton hr
  have tallied : (BuildState.start p).Tallied p (p.keysOf (some stage) [root])
      (visited.map (stageKey stage)) s :=
    (visitIn_tallied hp _ _ root _ ⟨.root (scoped_start p) [stage] stage, rfl⟩).post hv
  rw [asked] at tallied
  have listed : ∀ m, m ∈ visited ↔ p.Reachable root m := fun m => mem_visited_iff hp hr tallied
  have nodup : visited.Nodup := (List.nodup_map_iff stageKey_injective).1 tallied.nodup
  have placed : Placed p .root (Env.root p [stage] stage) s :=
    (Placed.root (scoped_start p) [stage] stage).mono tallied.advances
  have usage : ∀ x, s.cache.usage .root x (some stage) = s.cache.uses (stageKey stage x) := fun x =>
    NodeCache.usage_eq.trans (congrArg s.cache.uses placed.keyAt)
  have counts : ∀ x, s.cache.usage .root x (some stage) =
      (p.referencesTo root x).ncard + if x = r then 1 else 0 := by
    intro x
    have start : (BuildState.start p).cache.uses (stageKey stage x) = 0 := rfl
    have own : [stageKey stage r].count (stageKey stage x) = if x = r then 1 else 0 := by
      rw [List.count_singleton]
      by_cases he : x = r
      · rw [he, if_pos rfl, if_pos (beq_self_eq_true _)]
      · rw [if_neg he, if_neg fun e => he (stageKey_injective (eq_of_beq e)).symm]
    rw [usage, tallied.count, start, own, hp.count_places, ← (ncard_referencesTo nodup listed).2]
    omega
  refine ⟨r, visited, hr, hv, nodup, listed,
    fun x => ⟨(ncard_referencesTo nodup listed).1, counts x⟩, fun x hx => ?_, fun m hm => ?_⟩
  · rw [usage]
    refine Nat.eq_zero_of_not_pos fun pos => hx ((listed x).1 ?_)
    exact mem_map_stageKey.1 (((tallied.grown _).1 pos).resolve_left (Nat.lt_irrefl 0))
  · obtain ⟨r', hr', leads⟩ := hm
    have step : ∀ a b, p.Refers a b → p.Step ⟨a, []⟩ ⟨b, []⟩ := fun _ _ => hp.step
    have reaches : p.Reaches ([(stage, root)].map Prod.snd) ⟨m, []⟩ :=
      ⟨root, .head _, r', hr', ReflTransGen.lift (fun m => (⟨m, []⟩ : Situation)) step _ _ leads⟩
    exact fun back => analyze_apart hp.contextless h ⟨m, []⟩ reaches
      (TransGen.lift (fun m => (⟨m, []⟩ : Situation)) step _ _ back)

/-- A value that is brought from a range into another, twice the same. -/
def ranged : Graph := .ofNodes
  [.const .float [0], .const .float [1], .const .float [4], .remap ⟨2⟩ ⟨0⟩ ⟨1⟩ ⟨0⟩ ⟨1⟩,
    .operator .add ⟨3⟩ ⟨3⟩]

/-- What takes the place of the shared node refers four times to the end of both ranges. -/
theorem ranged_counted : ∃ p s, Plan.make ranged .standard [⟨4⟩] = .ok p ∧ p.Unshifted ∧
    atRoots p [.fragment] analyze [(.fragment, ⟨4⟩)] (BuildState.start p) = .ok s ∧
    s.cache.usage .root ⟨0⟩ (some .fragment) = 4 ∧ (p.referencesTo ⟨4⟩ ⟨0⟩).ncard = 4 ∧
    s.cache.usage .root ⟨3⟩ (some .fragment) = 0 := by
  have made : (Plan.make ranged .standard [⟨4⟩]).toOption.any (fun p =>
      (p.graph.entries.toList.map Entry.node).all (!·.shifts) &&
      (p.resolve ⟨4⟩).toOption == some ⟨4⟩ &&
      (atRoots p [.fragment] analyze [(.fragment, ⟨4⟩)] (BuildState.start p)).toOption.any fun s =>
        s.cache.usage .root ⟨0⟩ (some .fragment) == 4 &&
        s.cache.usage .root ⟨3⟩ (some .fragment) == 0) = true := by
    decide +kernel
  obtain ⟨p, hmake, checks⟩ := (Option.any_eq_true _ _).1 made
  rw [Bool.and_eq_true, Bool.and_eq_true] at checks
  obtain ⟨⟨plain, resolved⟩, counted⟩ := checks
  obtain ⟨s, hanalyze, checks⟩ := (Option.any_eq_true _ _).1 counted
  rw [Bool.and_eq_true, beq_iff_eq, beq_iff_eq] at checks
  have unshifted : p.Unshifted := .of_all plain
  have analysed := ok_of_toOption hanalyze
  obtain ⟨r, visited, hr, -, -, -, counts, -⟩ := usage_exact unshifted analysed
  have root : r = ⟨4⟩ := Except.ok.inj (hr.symm.trans (ok_of_toOption (eq_of_beq resolved)))
  have ends := (counts ⟨0⟩).2
  rw [checks.1, root, if_neg (by decide)] at ends
  exact ⟨p, s, ok_of_toOption hmake, unshifted, analysed, checks.1, ends.symm, checks.2⟩

end Whole

end Build

end ShaderGraph
