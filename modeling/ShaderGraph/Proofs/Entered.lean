import ShaderGraph.Proofs.Coverage
import ShaderGraph.Proofs.Declarations

/-!
# What analysis enters

A node may refer to an item of its own (`NodeOf.item?`), and the item may need others. Analysis
enters the items of all nodes that it counts (`analyze_surveys`), so generation finds their names
taken and declares none of them in an entry point.
-/

namespace ShaderGraph

open Relation

/-- The item that a node at `id` refers to. -/
def NodeOf.item? (id : NodeId) : Node → Option Item
  | .uniform name _ group update _ => some (.member ⟨name, group.getD update.defaultGroup⟩)
  | .meshAttribute name _ => some (.meshAttribute name)
  | .varying .. => some (.varying id)
  | .texture name .. => some (.texture name)
  | .storageBuffer name .. => some (.storage name)
  | .call f _ => some (.function f)
  | _ => none

/-- A node brings the item that it refers to and all that this one needs. -/
def Plan.Brings (p : Plan) (id : NodeId) (i : Item) : Prop :=
  ∃ n j, p.node id = .ok n ∧ n.item? id = some j ∧ ReflTransGen p.Needs j i

namespace BuildState

variable {p : Plan} {s s' s'' : BuildState}

/-- The items that an entered one needs are entered. -/
theorem Named.entered (hs : s.Named p) {i j : Item} (hj : s.namesOf j ≠ [])
    (h : ReflTransGen p.Needs j i) : s.namesOf i ≠ [] := by
  induction h with
  | refl => exact hj
  | tail _ hn ih => exact hs.needs hn ih

/-- Nothing is entered at the start. -/
theorem named_start (p : Plan) : (BuildState.start p).Named p where
  taken i := by cases i <;> exact fun n hn => nomatch hn
  distinct {i j n} hn := by cases i <;> cases hn
  members h := nomatch h
  needs {i j} _ hne := absurd (by cases i <;> rfl) hne
  sources _ _ h := nomatch h
  functions := List.nodup_nil
  renamed h := nomatch h

theorem namesOf_start (p : Plan) (i : Item) : (BuildState.start p).namesOf i = [] := by
  cases i <;> rfl

theorem not_declares_start (p : Plan) (n : String) : ¬(BuildState.start p).Declares n := by
  rintro ⟨t, hn⟩
  cases t <;> cases hn

/-- Analysis between two states: the items of what it counts anew are entered. -/
structure Surveys (p : Plan) (s s' : BuildState) : Prop extends s.Lists p s' where
  written : ∀ id, Build.isWritten s' id = Build.isWritten s id
  visits : s'.visits = s.visits
  entered : ∀ k, s'.cache.Counted k → s.cache.Counted k ∨
    ∀ n i, p.node k.node = .ok n → n.item? k.node = some i → s'.namesOf i ≠ []

namespace Surveys

/-- A change that counts nothing. -/
theorem of_lists (h : s.Lists p s') (hw : ∀ id, Build.isWritten s' id = Build.isWritten s id)
    (hv : s'.visits = s.visits) (hc : s'.cache = s.cache) : s.Surveys p s' :=
  ⟨h, hw, hv, fun _ hk => .inl (hc ▸ hk)⟩

theorem of_still (h : s.Lists p s') (hs : s'.still = s.still) : s.Surveys p s' :=
  of_lists h (Build.isWritten_of_still hs) (congrArg Still.visits hs) (congrArg Still.cache hs)

theorem refl (s : BuildState) : s.Surveys p s := of_still (.refl s) rfl

theorem trans (h : s.Surveys p s') (h' : s'.Surveys p s'') : s.Surveys p s'' where
  toLists := h.toLists.trans h'.toLists
  written id := (h'.written id).trans (h.written id)
  visits := h'.visits.trans h.visits
  entered k hk := by
    rcases h'.entered k hk with hk | hk
    · refine (h.entered k hk).imp_right fun he n i hn hi => ?_
      exact h'.toEnters.entered (he n i hn hi)
    · exact .inr hk

end Surveys

end BuildState

/-- What analysis keeps to. -/
def Law.surveying (p : Plan) : Law where
  inv env s := env.plan = p ∧ s.Named p
  rel _ := BuildState.Surveys p
  ends _ := True
  refl := .refl
  trans := .trans
  mono hi hr := ⟨hi.1, hr.named hi.2⟩
  loops _ hi := hi
  ordinary _ := trivial
  located _ := trivial

namespace Build

open Law BuildState

variable {p : Plan} {env : Env} {s s' : BuildState} {α : Type} {id : NodeId} {n : Node}
  {analyze : NodeId → Build Unit}

/-- An entry that is made and that counts nothing. -/
theorem meets_surveys {step : Build α} {post : α → BuildState → Prop}
    (h : Meets step env s (fun _ => True) fun a s' => s.Lists p s' ∧ post a s')
    (hs : Law.typing.Keeps env step) :
    Meets step env s (fun _ => True) fun a s' => s.Surveys p s' ∧ post a s' := by
  exact (h.and (hs s trivial)).imp fun a s' hr => ⟨.of_still hr.1.1 hr.2, hr.1.2⟩

/-- An item is entered. -/
theorem discard_surveys {step : Build α} {i : Item}
    (h : Meets step env s (fun _ => True) fun _ s' => s.Surveys p s' ∧ s'.namesOf i ≠ []) :
    Meets (discard step) env s (fun _ => True) fun _ s' =>
      s.Surveys p s' ∧ ∀ j, some i = some j → s'.namesOf j ≠ [] := by
  rw [meets_discard]
  refine h.imp fun _ s' hr => ⟨hr.1, ?_⟩
  rintro j ⟨⟩
  exact hr.2

/-- An item is entered, and some nodes are walked over. -/
theorem discard_forM_surveys {step : Build α} {i : Item} {cs : List NodeId} (hs : s.Named p)
    (hp : env.plan = p)
    (h : Meets step env s (fun _ => True) fun _ s' => s.Surveys p s' ∧ s'.namesOf i ≠ [])
    (walk : ∀ c, (Law.surveying p).Keeps env (analyze c)) :
    Meets (discard step >>= fun _ => List.forM cs analyze) env s (fun _ => True) fun _ s' =>
      s.Surveys p s' ∧ ∀ j, some i = some j → s'.namesOf j ≠ [] := by
  rw [meets_bind]
  refine (discard_surveys h).imp fun _ s' hr => ?_
  have all : (Law.surveying p).Keeps env (List.forM cs analyze) := .forM fun c _ => walk c
  refine (all s' ⟨hp, hr.1.named hs⟩).imp fun _ s'' hr' => ⟨hr.1.trans hr', fun j hj => ?_⟩
  exact hr'.toEnters.entered (hr.2 j hj)

/-- Analysis enters the item of a node. -/
theorem analyzeNode_surveys (hn : p.node id = .ok n)
    (h : ∀ env' c, (Law.surveying p).Keeps env' (analyze c)) :
    (Law.surveying p).Secures env (analyzeNode analyze id n) fun s =>
      ∀ i, n.item? id = some i → s.namesOf i ≠ [] := by
  rintro s ⟨plan, named⟩
  cases n with
  | uniform name type group update value =>
    refine discard_surveys (meets_surveys ?_ (typing_ofTables (registerUniform_tables _ _ _ _ _ _)))
    refine (registerUniform_listing id name type group update value plan).imp fun u s' hr => ?_
    exact ⟨hr.1, hr.2.2 ▸ List.cons_ne_nil _ _⟩
  | meshAttribute name type =>
    refine discard_surveys (meets_surveys ?_ (typing_ofTables (registerAttribute_tables _ _)))
    refine (registerAttribute_listing name type).imp fun a s' hr => ⟨hr.1, ?_⟩
    rw [namesOf, hr.2, Option.elim]
    exact List.cons_ne_nil _ _
  | storageBuffer name element count access =>
    refine discard_surveys (meets_surveys ?_ (typing_ofTables (registerStorage_tables _ _ _ _)))
    refine (registerStorage_listing name element count access).imp fun b s' hr => ⟨hr.1, ?_⟩
    rw [namesOf, hr.2, Option.elim]
    exact List.cons_ne_nil _ _
  | texture name uv level =>
    refine discard_forM_surveys named plan (meets_surveys ?_ (typing_ofTables (registerTexture_tables name)))
      (h env)
    refine (registerTexture_listing name).imp fun t s' hr => ⟨hr.1, ?_⟩
    rw [namesOf, hr.2, Option.elim]
    exact List.cons_ne_nil _ _
  | call f args =>
    refine discard_forM_surveys named plan (meets_surveys ?_ (registerFunction_still f)) (h env)
    refine (registerFunction_listing f plan).imp fun e s' hr => ⟨hr.1, ?_⟩
    rw [namesOf, hr.2, Option.elim]
    exact List.cons_ne_nil _ _
  | varying source name interpolation sampling =>
    unfold analyzeNode
    rw [meets_bind, meets_discard]
    have register := registerVarying_listing plan hn named
    have location := @registerVarying_location env id source name interpolation sampling s
    refine ((register.and (registerVarying_still hn named.sources)).and location).imp ?_
    rintro v s' ⟨⟨⟨lists, -, entry⟩, hr, -⟩, unwritten, -⟩
    have surveys : s.Surveys p s' :=
      .of_lists lists unwritten (congrArg Still.visits hr.1) (congrArg Still.cache hr.1)
    rw [meets_inStage]
    have plan' : (within env .vertex).plan = p := by
      unfold within
      split <;> exact plan
    refine (h _ source s' ⟨plan', lists.named named⟩).imp fun _ s'' hr' => ?_
    refine ⟨surveys.trans hr', ?_⟩
    rintro i ⟨⟩
    exact hr'.toEnters.entered (entry ▸ List.cons_ne_nil _ _)
  | cache inner shares =>
    unfold analyzeNode
    rw [meets_bind, meets_cacheScope, meets_inScope]
    have grown : s.Surveys p { s with cache := (s.cache.scopeFor env.scope id shares).2 } :=
      ⟨⟨.of_eq rfl rfl rfl rfl rfl, rfl⟩, fun _ => rfl, rfl, fun k hk =>
        .inl ((NodeCache.counted_of_records NodeCache.records_scopeFor).1 hk)⟩
    refine (h _ inner _ ?_).imp fun _ s' hr =>
      ⟨grown.trans hr, fun _ hi => absurd hi.symm (Option.some_ne_none _)⟩
    exact ⟨plan, grown.named named⟩
  | context inner values =>
    show Meets (inContext id values (analyze inner)) env s _ _
    rw [meets_inContext]
    have grown : s.Surveys p
        { s with frames := (s.frames.extend (Frame.current env.frames) id).2 } :=
      .of_still ⟨.of_eq rfl rfl rfl rfl rfl, rfl⟩ rfl
    refine (h _ inner _ ?_).imp fun _ s' hr =>
      ⟨grown.trans hr, fun _ hi => absurd hi.symm (Option.some_ne_none _)⟩
    exact ⟨plan, grown.named named⟩
  | contextValue key fallback =>
    show Meets (withContextValue key fallback analyze) env s _ _
    rw [meets_withContextValue]
    split
    · next c outer _ =>
      have around : (Law.surveying p).inv { env with frames := outer } s := ⟨plan, named⟩
      exact (h _ c s around).imp fun _ s' hr => ⟨hr, fun _ hi => absurd hi.symm (Option.some_ne_none _)⟩
    · next c _ =>
      exact (h env c s ⟨plan, named⟩).imp fun _ s' hr =>
        ⟨hr, fun _ hi => absurd hi.symm (Option.some_ne_none _)⟩
    · trivial
  | _ =>
    refine (Keeps.forM (fun c _ => h env c) s ⟨plan, named⟩).imp fun _ s' hr => ⟨hr, ?_⟩
    exact fun _ hi => absurd hi.symm (Option.some_ne_none _)

/-- Analysis enters the items of all that it counts. -/
theorem analyzeIn_surveys (fuel : Nat) : (Law.surveying p).Keeps env (analyzeIn fuel id) := by
  induction fuel generalizing env id with
  | zero => exact fun _ _ => trivial
  | succ fuel ih =>
    rintro s ⟨rfl, named⟩
    have lists : ∀ m, s.Lists env.plan (s.counting env m) :=
      fun m => ⟨.of_eq rfl rfl rfl rfl rfl, rfl⟩
    refine meets_analyzeIn (L := Law.surveying env.plan) (fun _ _ _ => trivial) ?_ ?_
    · intro m _ _ hc
      refine ⟨lists m, fun _ => rfl, rfl, fun k hk => .inl ?_⟩
      rcases counted_counting.1 hk with rfl | hk
      · exact hc
      · exact hk
    · intro m n _ _ _ hn
      let deeper : Env := { env with path := m :: env.path }
      have walk : (Law.surveying env.plan).Secures deeper (analyzeNode (analyzeIn fuel) m n)
          fun s => ∀ i, n.item? m = some i → s.namesOf i ≠ [] :=
        analyzeNode_surveys hn fun _ _ => ih
      refine (walk _ ⟨rfl, (lists m).named named⟩).imp fun _ s' hr => ?_
      refine ⟨(lists m).trans hr.1.toLists, hr.1.written, hr.1.visits, fun k hk => ?_⟩
      rcases hr.1.entered k hk with hk | hk
      · rcases counted_counting.1 hk with rfl | hk
        · refine .inr fun n' i hn' hi => hr.2 i ?_
          cases hn.symm.trans hn'
          exact hi
        · exact .inl hk
      · exact .inr hk

/-- After analysis the items of all counted nodes are entered, and entry points declare nothing. -/
theorem analyze_surveys {active : List Stage} {rs : List (Stage × NodeId)}
    (h : atRoots p active Build.analyze rs (BuildState.start p) = .ok s) :
    (BuildState.start p).Surveys p s := by
  have start : ∀ r ∈ rs, (Law.surveying p).inv (Env.root p active r.1) (BuildState.start p) :=
    fun r _ => ⟨rfl, named_start p⟩
  have walk : ∀ r ∈ rs, (Law.surveying p).Keeps (Env.root p active r.1) (Build.analyze r.2) := by
    intro r _ s hs
    unfold Build.analyze
    rw [meets_bind, meets_read]
    exact (analyzeIn_surveys _ s hs).imp fun _ _ hr => hr
  have all := Law.Keeps.atRoots start walk
  rw [h] at all
  exact all

end Build

end ShaderGraph
