import ShaderGraph.Proofs.Law
import ShaderGraph.Proofs.ScopedSteps
import ShaderGraph.Proofs.WrittenBuild

/-!
# Steps whose code is in scope

`Build.Composes env given step made` is about a step of generation that is taken when the
expressions `given` refer to what is in scope: the innermost block of the stage grows, and what the
step makes refers to what is in scope then. For each way to compose steps there is a lemma that
composes what they make. `Build.Encloses` is about steps that hand over the statements of a block.
-/

namespace ShaderGraph

open BuildState

/-- The counters of the loops around, innermost first. -/
def Env.counters (env : Env) : List String := env.loops.map ActiveLoop.counter

/-- Whether something is neither a local nor a uniform. -/
def Reference.isStatic : Reference → Bool
  | .local _ | .uniform .. => false
  | _ => true

/-- A stage provides for the expressions that refer to what is in scope. -/
def Supply.scope : Supply Expr where
  inv env s := s.Tidy env.plan env.stage env.counters
  rel env s s' := s.Grows env.plan env.stage env.counters s'
  has env s e := e.Refers (s.knows env.stage) (s.scope env.stage env.counters)
  refl := .refl
  trans h h' := Grows.trans h h'
  mono hs h := Grows.tidy h hs
  keep h he := Grows.refers h (List.forall_mem_singleton.2 he) _ (.head _)

namespace Build

variable {α β : Type} {env : Env} {given given' : List Expr} {s s' : BuildState}

/-- The innermost block grows, and what the step makes refers to what is in scope. -/
def Composes (env : Env) (given : List Expr) (step : Build α) (made : α → List Expr) : Prop :=
  ∀ s, s.Tidy env.plan env.stage env.counters → s.Refers env.stage env.counters given →
    Meets step env s (fun _ => True) fun a s' =>
      s.Grows env.plan env.stage env.counters s' ∧ s'.Refers env.stage env.counters (made a)

/-- The statements of a block that was closed are handed over. -/
def Encloses (env : Env) (given : List Expr) (step : Build (List Statement)) : Prop :=
  ∀ s, s.Tidy env.plan env.stage env.counters → s.Refers env.stage env.counters given →
    Meets step env s (fun _ => True) fun ss s' =>
      s.Hands env.plan env.stage env.counters ss s'

/-- What refers to what is in scope whenever some expressions do. -/
def Follows (given made : List Expr) : Prop :=
  ∀ known scope, (∀ r : Reference, r.isStatic = true → known r) →
    (∀ e ∈ given, e.Refers known scope) → ∀ e ∈ made, e.Refers known scope

theorem Follows.of_subset (h : given' ⊆ given) : Follows given given' :=
  fun _ _ _ hg e he => hg e (h he)

theorem follows_nil : Follows given [] := fun _ _ _ _ _ he => nomatch he

/-- An input can be referred to everywhere. -/
theorem follows_reference {r : Reference} (h : r.isStatic = true) : Follows given [.reference r] :=
  fun _ _ hk _ _ he => List.mem_singleton.1 he ▸ Expr.refers_reference.2 (.inl (hk r h))

/-- What follows does so at each place of a stage. -/
theorem Follows.refers {made : List Expr} (h : Follows given made) {t : Stage} {cs : List String}
    (hr : s.Refers t cs given) : s.Refers t cs made := by
  refine h _ _ (fun r hr => ?_) hr
  cases r with
  | «local» | uniform => cases hr
  | _ => trivial

/-! ### Composition -/

namespace Composes

variable {made : α → List Expr} {made' : β → List Expr} {step : Build α}

theorem mono (h : Composes env given step made) (hg : given ⊆ given') :
    Composes env given' step made := Supply.Makes.mono (S := .scope) h hg

theorem pure {a : α} (h : Follows given (made a)) : Composes env given (pure a) made :=
  Supply.Makes.pure (S := .scope) fun _ hr => h.refers hr

/-- A step that makes nothing. -/
theorem done {a : α} : Composes env given (Pure.pure a) fun _ => [] := .pure follows_nil

theorem bind {next : α → Build β} (h : Composes env given step made)
    (hn : ∀ a, Composes env (made a ++ given) (next a) made') :
    Composes env given (step >>= next) made' := Supply.Makes.bind (S := .scope) h hn

theorem map (f : α → β) (h : Composes env given step fun a => made' (f a)) :
    Composes env given (f <$> step) made' := Supply.Makes.map (S := .scope) f h

theorem discard (h : Composes env given step made) :
    Composes env given (discard step) fun _ => [] := Supply.Makes.discard (S := .scope) h

theorem fail {c : Cause} : Composes env given (fail c) made := Supply.Makes.fail (S := .scope)

theorem ite {c : Prop} [Decidable c] {a b : Build α} (ha : c → Composes env given a made)
    (hb : ¬c → Composes env given b made) : Composes env given (if c then a else b) made :=
  Supply.Makes.ite (S := .scope) ha hb

/-- What a check lets pass. -/
theorem check {c : Prop} [Decidable c] {cause : Cause} {next : Unit → Build α}
    (h : Composes env given (next ()) made) :
    Composes env given (if c then Build.fail cause >>= next else next ()) made :=
  Supply.Makes.check (S := .scope) h

theorem located {id : NodeId} (h : Composes env given step made) :
    Composes env given (Build.located id step) made := Supply.Makes.located (S := .scope) h

theorem read {next : Env → Build α} (h : Composes env given (next env) made) :
    Composes env given (MonadReader.read >>= next) made := Supply.Makes.read (S := .scope) h

/-- A step that only looks. -/
theorem look {next : α → Build β} (h : Law.looking.Keeps env step)
    (hn : ∀ a, Composes env given (next a) made') : Composes env given (step >>= next) made' :=
  Supply.Makes.look (S := .scope) h hn

theorem ofExcept {ε : Type} [Coe ε Cause] {r : Except ε α}
    (h : ∀ a, r = .ok a → Follows given (made a)) : Composes env given (Build.ofExcept r) made := by
  cases r with
  | ok a => exact .pure (h a rfl)
  | error e => exact .fail

/-- What a check computes is no expression. -/
theorem rule {ε : Type} [Coe ε Cause] {r : Except ε α} {next : α → Build β}
    (hn : ∀ a, Composes env given (next a) made') :
    Composes env given (Build.ofExcept r >>= next) made' :=
  Supply.Makes.rule (S := .scope) fun a _ => hn a

theorem resolve {id : NodeId} {next : NodeId → Build α}
    (h : ∀ m, env.plan.resolve id = .ok m → Composes env given (next m) made) :
    Composes env given (Build.resolve id >>= next) made := Supply.Makes.resolve (S := .scope) h

theorem node {id : NodeId} {next : Node → Build α}
    (h : ∀ n, env.plan.node id = .ok n → Composes env given (next n) made) :
    Composes env given (Build.node id >>= next) made := Supply.Makes.node (S := .scope) h

theorem structMembers {name : String} {next : List Member → Build α}
    (h : ∀ members, Composes env given (next members) made) :
    Composes env given (Build.structMembers name >>= next) made :=
  Supply.Makes.structMembers (S := .scope) h

theorem mapM {f : α → Build Expr} {xs : List α}
    (h : ∀ x ∈ xs, Composes env given (f x) fun e => [e]) :
    Composes env given (xs.mapM f) fun es => es := by
  have all : Composes env given (xs.mapM f) fun es => es.flatMap fun e => [e] :=
    Supply.Makes.mapM (S := .scope) h
  simpa only [List.flatMap_singleton'] using all

theorem forM {f : α → Build PUnit} {xs : List α}
    (h : ∀ x ∈ xs, Composes env given (f x) fun _ => []) :
    Composes env given (xs.forM f) fun _ => [] := Supply.Makes.forM (S := .scope) h

end Composes

/-! ### Tables -/

/-- What fills tables only keeps to. -/
def filling (p : Plan) : Law where
  inv env _ := env.plan = p
  rel _ := Fills p
  ends _ := True
  refl := .refl
  trans := .trans
  mono hi _ := hi
  loops _ hi := hi
  ordinary _ := trivial
  located _ := trivial

theorem Composes.fill {step : Build α} {next : α → Build β} {made : β → List Expr}
    (h : (filling env.plan).Keeps env step) (hn : ∀ a, Composes env given (next a) made) :
    Composes env given (step >>= next) made := by
  intro s hs hr
  rw [meets_bind]
  refine (h s rfl).imp fun a s' (fills : s.Fills env.plan s') => ?_
  have grows : s.Grows env.plan env.stage env.counters s' := fills.grows
  exact (hn a s' (grows.tidy hs) (grows.refers hr)).imp fun _ _ h => ⟨grows.trans h.1, h.2⟩

/-- A step that fills tables makes what can be referred to everywhere. -/
theorem Composes.of_fills {step : Build α} {made : α → List Expr}
    (h : ∀ s, s.Named env.plan → Meets step env s (fun _ => True) fun a s' =>
      s.Fills env.plan s' ∧ ∀ e ∈ made a, ∃ r, e = .reference r ∧ s'.knows env.stage r) :
    Composes env given step made := by
  intro s hs _
  refine (h s hs.named).imp fun a s' ⟨fills, known⟩ => ⟨fills.grows, fun e he => ?_⟩
  obtain ⟨r, rfl, hr⟩ := known e he
  exact Expr.refers_reference.2 (.inl hr)

section

variable {p : Plan} {step : Build α}

theorem fills_of_tabulates (hl : s.Lists p s') (ht : s.Tabulates s') (hc : s'.cache = s.cache) :
    s.Fills p s' := ⟨hl, ht.groups, congrArg NodeCache.records hc, ht.visits⟩

theorem filling_ofTabulating (hl : env.plan = p → (Law.listing p).Keeps env step)
    (ht : Law.tabulating.Keeps env step) (hs : Law.typing.Keeps env step) :
    (filling p).Keeps env step := by
  intro s hi
  refine ((hl hi s hi).and ((ht s trivial).and (hs s trivial))).imp
    fun _ s' ⟨lists, tabulates, still⟩ => ?_
  exact fills_of_tabulates lists tabulates (congrArg Still.cache still)

theorem filling_ofInputs (hl : env.plan = p → (Law.listing p).Keeps env step)
    (hi : Law.inputs.Keeps env step) (hs : Law.typing.Keeps env step) :
    (filling p).Keeps env step :=
  filling_ofTabulating hl (tabulating_ofInputs hi) hs

theorem useType_fills (t : ValueType) : (filling p).Keeps env (useType t) :=
  filling_ofInputs (fun _ => useType_listing t) (useType_inputs t)
    (typing_ofTables (useType_tables (absurd trivial) t))

theorem typeOf_fills (id : NodeId) : (filling p).Keeps env (typeOf id) :=
  filling_ofInputs (fun _ => typeOf_listing id) (typeOf_inputs id) (typeOf_still id)

theorem registerFunction_fills (f : FunctionId) : (filling p).Keeps env (registerFunction f) :=
  filling_ofInputs (fun _ => registerFunction_lists f) (registerFunction_inputs f)
    (registerFunction_still f)

theorem useFunction_fills (f : FunctionId) : (filling p).Keeps env (useFunction f) :=
  filling_ofInputs (fun _ => useFunction_listing f) (useFunction_inputs f) (useFunction_still f)

theorem useTexture_fills (name : String) : (filling p).Keeps env (useTexture name) :=
  filling_ofTabulating (fun _ => useTexture_listing name) (useTexture_tabulates name)
    (typing_ofTables (useTexture_tables name))

end

/-! ### Inputs -/

/-- A stage that reads a uniform declares the block of its group. -/
theorem useUniform_declares (group : String) (u : UniformEntry) :
    Meets (useUniform group u) env s (fun _ => True) fun _ s' =>
      group ∈ (s'.stages.get env.stage).groups := by
  have declared : ∀ s : BuildState, group ∈ ((s.stages.modify env.stage fun b =>
      { b with groups := appendNew b.groups group }).get env.stage).groups := by
    intro s
    rw [PerStage.get_modify, if_pos rfl]
    exact mem_appendNew.2 (.inr rfl)
  unfold useUniform
  rw [meets_bind]
  refine (meets_true (groupEntry group)).imp fun g s₁ _ => ?_
  exact (meets_ite _ _ _).2 ⟨fun _ => declared _, fun _ => declared _⟩

theorem uniform_composes (id : NodeId) (name : String) (type : ValueType) (group : Option String)
    (update : Cadence) (value : List Float32) (g : Generator) :
    Composes env given (generateNode g id (.uniform name type group update value))
      Option.toList := by
  refine .of_fills fun s _ => ?_
  rw [generateNode, meets_bind]
  refine ((registerUniform_listing id name type group update value rfl).and
    ((registerUniform_tabulates id type group update value s trivial).and
      (typing_ofTables (registerUniform_tables id name type group update value) s trivial))).imp ?_
  rintro ⟨key, u⟩ s₁ ⟨⟨lists, rfl, member⟩, tabulates, still⟩
  have fills : s.Fills env.plan s₁ :=
    fills_of_tabulates lists tabulates (congrArg Still.cache still)
  rw [meets_map]
  refine ((useUniform_entry (p := env.plan) _ u).and ((useUniform_declares _ u).and
    ((useUniform_tabulates _ u s₁ trivial).and
      (typing_ofTables (useUniform_tables _ u) s₁ trivial)))).imp ?_
  rintro e s₂ ⟨⟨lists', block, inst, rfl, names⟩, declared, tabulates', still'⟩
  refine ⟨fills.trans (fills_of_tabulates lists' tabulates' (congrArg Still.cache still')), ?_⟩
  intro e he
  obtain rfl := Option.some.inj (Option.mem_toList.1 he)
  refine ⟨_, rfl, _, declared, ⟨block, names⟩, name, ?_⟩
  exact (lists'.keep (member ▸ List.cons_ne_nil _ _)).trans member

theorem attribute_composes (name : String) (type : Option ValueType) :
    Composes env given (buildAttribute name type) fun e => [e] := by
  refine .of_fills fun s _ => ?_
  unfold buildAttribute
  rw [meets_bind, meets_stage]
  refine meets_check fun hv => ?_
  refine ((useAttribute_entry (p := env.plan) name type).and
    ((useAttribute_tabulates type (not_not.1 hv) s trivial).and
      (typing_ofTables (useAttribute_tables name type) s trivial))).imp ?_
  rintro _ s' ⟨⟨lists, n, rfl, -⟩, tabulates, still⟩
  refine ⟨fills_of_tabulates lists tabulates (congrArg Still.cache still), fun e he => ?_⟩
  exact ⟨_, List.mem_singleton.1 he, trivial⟩

theorem builtin_composes (b : Builtin) : Composes env given (useBuiltin b) fun e => [e] := by
  have mark : (filling env.plan).Keeps env
      (modifyHere fun h => { h with builtins := appendNew h.builtins b }) :=
    filling_ofInputs (fun _ => listing_modifyHere fun _ => rfl) (inputs_modifyHere fun _ => rfl)
      (typing_ofTables (tables_modifyHere (fun _ => rfl) fun _ => rfl))
  exact .look .stage fun t => .check (.fill mark fun _ => .pure (follows_reference rfl))

/-- A storage buffer is entered and used. -/
theorem Composes.storage {name : String} {element : ValueType} {count : Option UInt32}
    {access : Access} {next : StorageEntry → Expr → Build α} {made : α → List Expr}
    (hn : ∀ b e, Composes env (e :: given) (next b e) made) : Composes env given (do
      let b ← registerStorage name element count access
      let e ← useStorage name b
      next b e) made := by
  intro s hs hr
  rw [meets_bind]
  refine ((registerStorage_listing (p := env.plan) name element count access).and
    ((registerStorage_tabulates element count access s trivial).and
      (typing_ofTables (registerStorage_tables name element count access) s trivial))).imp ?_
  rintro b s₁ ⟨⟨lists, hb⟩, tabulates, still⟩
  have fills : s.Fills env.plan s₁ :=
    fills_of_tabulates lists tabulates (congrArg Still.cache still)
  rw [meets_bind]
  refine ((useStorage_listing (p := env.plan) rfl hb).and ((useStorage_tabulates hb).and
    ((typing_ofTables (useStorage_tables (absurd trivial) name b) s₁ trivial).and
      (useStorage_reference name b env s₁)))).imp ?_
  rintro _ s₂ ⟨lists', tabulates', still', rfl⟩
  have grows : s.Grows env.plan env.stage env.counters s₂ :=
    (fills.trans (fills_of_tabulates lists' tabulates' (congrArg Still.cache still'))).grows
  refine (hn b _ s₂ (grows.tidy hs) ?_).imp fun _ _ h => ⟨grows.trans h.1, h.2⟩
  intro e he
  rcases List.mem_cons.1 he with rfl | he
  · exact Expr.refers_reference.2 (.inl trivial)
  · exact grows.refers hr e he

theorem storage_composes (name : String) (element : ValueType) (count : Option UInt32)
    (access : Access) : Composes env given (buildStorage name element count access)
    fun e => [e] := by
  have use : Composes env given (registerStorage name element count access >>= fun b =>
      useStorage name b >>= pure) fun e => [e] :=
    .storage fun b e => .pure (.of_subset (List.cons_subset_cons e (List.nil_subset _)))
  simp only [bind_pure] at use
  exact use

/-! ### Properties -/

theorem property_composes (name : String) (type : ValueType) :
    Composes env given (buildProperty name type) fun e => [e] := by
  intro s hs hr
  unfold buildProperty
  rw [meets_bind, meets_here]
  cases hp : (s.stages.get env.stage).properties.get? name with
  | some found =>
    obtain ⟨existing, emitted⟩ := found
    refine meets_check fun _ => ⟨.refl s, fun e he => ?_⟩
    have known : emitted ∈ (s.stages.get env.stage).propertyNames :=
      StageBuild.mem_propertyNames_of_get? hp
    exact List.mem_singleton.1 he ▸ Expr.refers_reference.2 (.inl known)
  | none =>
    dsimp only
    rw [meets_bind]
    refine (useType_fills type s rfl).imp fun _ s₁ (fills : s.Fills env.plan s₁) => ?_
    rw [meets_bind]
    have grows : s.Grows env.plan env.stage env.counters s₁ := fills.grows
    have new : (s₁.stages.get env.stage).properties.get? name = none := by
      have same : (s₁.stages.get env.stage).properties = (s.stages.get env.stage).properties :=
        congrArg EntryPoint.properties (congrFun fills.bodies env.stage)
      rw [same]
      exact hp
    refine meets_claimLocal fun emitted taken => ?_
    rw [NameTable.isTaken, Bool.or_eq_false_iff] at taken
    rw [meets_bind, meets_modifyHere, meets_pure]
    refine ⟨grows.trans (.property taken.1 new), fun e he => ?_⟩
    refine List.mem_singleton.1 he ▸ Expr.refers_reference.2 (.inl ?_)
    refine @StageBuild.mem_propertyNames_of_get? _ name (type, emitted) ?_
    rw [PerStage.get_modify, if_pos rfl]
    exact (OrderedMap.get?_put _ _ _ _).trans (if_pos rfl)

/-! ### Declarations -/

theorem claimLocal_claims {p : Plan} (name : String) (hs : s.Tidy p env.stage env.counters) :
    Meets (claimLocal name) env s (fun _ => True) fun n s' =>
      s.Claims p env.stage env.counters n s' := by
  refine meets_claimLocal fun n taken => ?_
  rw [NameTable.isTaken, Bool.or_eq_false_iff] at taken
  exact hs.claims taken.1 rfl (fun _ => rfl) fun _ => rfl

theorem claimTemp_claims {p : Plan} (hs : s.Tidy p env.stage env.counters) :
    Meets claimTemp env s (fun _ => True) fun n s' => s.Claims p env.stage env.counters n s' := by
  refine meets_claimTemp fun n counter taken => ?_
  rw [NameTable.isTaken, Bool.or_eq_false_iff] at taken
  exact hs.claims taken.1 rfl (fun _ => rfl) fun _ => rfl

/-- A temporary is declared. -/
theorem declareTemp_introduces {type : ValueType} {init : Option Expr} {m : Mutability}
    (hs : s.Tidy env.plan env.stage env.counters)
    (hi : ∀ e, init = some e → s.Refers env.stage env.counters [e]) :
    Meets (declareTemp type init m) env s (fun _ => True) fun n s' =>
      s.Introduces env.plan env.stage env.counters n none s' := by
  unfold declareTemp
  rw [meets_bind]
  refine (useType_fills type s rfl).imp fun _ s₁ (fills : s.Fills env.plan s₁) => ?_
  have grows : s.Grows env.plan env.stage env.counters s₁ := fills.grows
  rw [meets_bind]
  refine (claimTemp_claims (grows.tidy hs)).imp fun n s₂ claims => ?_
  rw [meets_bind, addStatement, meets_modifyHere, meets_pure]
  exact (claims.declare (grows.tidy hs) fun e he => grows.refers (hi e he)).after grows

/-! ### Names of nodes -/

section

variable {id : NodeId}

/-- A node is bound to a name that the innermost block declares for it. -/
theorem bindName_grows {n : String} (frame : Option FrameId)
    (kind : ∃ m, env.plan.node id = .ok m ∧ m.mayBind = true)
    (hs : s.Tidy env.plan env.stage env.counters)
    (h : s.Introduces env.plan env.stage env.counters n
      (frame.elim (some (keyAt env s' id)) fun _ => none) s') :
    Meets (bindName id n frame) env s' (fun _ => True) fun _ s'' =>
      s.Grows env.plan env.stage env.counters s'' ∧
        s''.Refers env.stage env.counters [localName n] :=
  ⟨h.bind hs rfl kind fun _ => NodeCache.bound?_bind, h.ready.refers⟩

/-- A temporary is bound to the value of a node. -/
theorem bindTemp_composes {n : String} (kind : ∃ m, env.plan.node id = .ok m ∧ m.mayBind = true)
    (hs : s.Tidy env.plan env.stage env.counters)
    (h : s.Introduces env.plan env.stage env.counters n none s') :
    Meets (do
        bindValue id n
        return some (localName n)) env s' (fun _ => True) fun e s'' =>
      s.Grows env.plan env.stage env.counters s'' ∧ s''.Refers env.stage env.counters e.toList := by
  rw [meets_bind]
  exact bindName_grows (some _) kind hs h

/-- The name that a node is bound to is used where it can be seen. -/
theorem meets_boundName {ends : Failure → Prop} :
    Meets (boundName? id) env s ends fun name s' => s' = s ∧ ∀ n, name = some n ↔
      ∃ b, s.cache.bound? (keyAt env s id) = some b ∧ (visitAt env s id none).Sees b ∧
        b.name = n := by
  unfold boundName?
  rw [meets_bind, meets_read, meets_bind, meets_get]
  rw [← bound?_keyAt]
  cases hb : s.cache.bound? (keyAt env s id) with
  | none =>
    refine ⟨rfl, fun n => iff_of_false nofun ?_⟩
    rintro ⟨b, hb', -⟩
    cases hb'
  | some b =>
    dsimp only
    unfold isVisible
    rw [meets_bind, meets_bind, meets_read, meets_bind, meets_here, meets_pure, meets_pure]
    refine ⟨rfl, fun n => ?_⟩
    rw [Option.ite_none_right_eq_some, Option.some.injEq]
    have sees : ∀ {visible : Bool}, (visible = true ↔ (visitAt env s id none).Sees b) →
        (visible = true ∧ b.name = n ↔ ∃ b', some b = some b' ∧
          (visitAt env s id none).Sees b' ∧ b'.name = n) := by
      intro visible hv
      rw [hv]
      constructor
      · rintro ⟨hb, hn⟩
        exact ⟨b, rfl, hb, hn⟩
      · rintro ⟨_, ⟨⟩, hb, hn⟩
        exact ⟨hb, hn⟩
    refine sees ?_
    rw [Bool.and_eq_true]
    refine and_congr_left fun _ => ?_
    cases b.frame with
    | none => simp
    | some f => simp [visitAt]

/-- A name that can be used is in scope. -/
theorem Composes.ask {next : Option String → Build α} {made : α → List Expr}
    (found : ∀ n, Composes env (localName n :: given) (next (some n)) made)
    (missed : Composes env given (next none) made) :
    Composes env given (boundName? id >>= next) made := by
  intro s hs hr
  rw [meets_bind]
  refine meets_boundName.imp ?_
  rintro name _ ⟨rfl, names⟩
  cases name with
  | none => exact missed _ hs hr
  | some n =>
    obtain ⟨b, hb, hv, rfl⟩ := (names n).1 rfl
    refine found _ _ hs fun e he => ?_
    rcases List.mem_cons.1 he with rfl | he
    · exact Expr.refers_local (List.mem_append_left _ (hs.declared rfl hb hv.2).visible)
    · exact hr e he

/-- A value that may be bound to a name. -/
theorem Composes.buildTemp {step : Build (Option Expr)}
    (kind : ∃ m, env.plan.node id = .ok m ∧ m.mayBind = true)
    (h : Composes env given step Option.toList) :
    Composes env given (buildTemp id step) Option.toList := by
  refine .ask (fun n => .pure (.of_subset (List.cons_subset_cons _ (List.nil_subset _)))) ?_
  refine .bind h fun e => .fill (typeOf_fills id) fun type => ?_
  cases e with
  | none => exact .pure follows_nil
  | some e =>
    refine .look (.usage id) fun count => .ite (fun _ => .pure (.of_subset ?_)) fun _ => ?_
    · exact List.cons_subset_cons e (List.nil_subset _)
    · intro s hs hr
      rw [meets_bind]
      have value : ∀ x, some e = some x → s.Refers env.stage env.counters [x] :=
        fun x hx y hy => hr y (by rw [List.mem_singleton.1 hy, ← Option.some.inj hx]; exact .head _)
      exact (declareTemp_introduces hs value).imp fun n s' h => bindTemp_composes kind hs h

end

/-! ### Statements and blocks -/

/-- A statement is added that declares nothing and holds no blocks. -/
theorem Composes.add {st : Statement} (hn : st.binds? = none) (hb : st.blocks = [])
    (h : ∀ known scope, (∀ r : Reference, r.isStatic = true → known r) →
      (∀ e ∈ given, e.Refers known scope) → Statement.Scoped known scope [st]) :
    Composes env given (addStatement st) fun _ => [] := by
  intro s hs hr
  refine ⟨.plain hn hb (h _ _ (fun r hr => ?_) hr), fun _ he => nomatch he⟩
  cases r with
  | «local» | uniform => cases hr
  | _ => trivial

/-- The statements of a block are in order. -/
theorem Encloses.inBlock {step : Build Unit} (h : Composes env given step fun _ => []) :
    Encloses env given (inBlock step) := by
  intro s hs hr
  unfold Build.inBlock
  rw [meets_bind, meets_modifyHere, meets_bind]
  refine (h _ hs.openBlock (hr.openBlock env.plan)).imp fun _ s' ⟨grows, _⟩ => ?_
  rw [meets_bind, meets_here, meets_bind, meets_modifyHere, meets_pure]
  exact .of_block grows

/-- A branch that holds one block. -/
theorem Encloses.hold {c : Expr} {step : Build (List Statement)} {next : Unit → Build α}
    {post : α → BuildState → Prop} (h : Encloses env given step)
    (hs : s.Tidy env.plan env.stage env.counters) (hr : s.Refers env.stage env.counters given)
    (hc : c ∈ given) (hn : ∀ s', s.Grows env.plan env.stage env.counters s' →
      Meets (next ()) env s' (fun _ => True) post) :
    Meets (step >>= fun ss => addStatement (.branch c ss none) >>= next) env s
      (fun _ => True) post := by
  rw [meets_bind]
  refine (h s hs hr).imp fun ss s' hands => ?_
  rw [meets_bind, addStatement, meets_modifyHere]
  exact hn _ (.branch hands (.refl s') (hr c hc))

/-- A branch that holds two blocks. -/
theorem Encloses.both {c : Expr} {t e : Build (List Statement)} {next : Unit → Build α}
    {post : α → BuildState → Prop} (ht : Encloses env given t) (he : Encloses env given e)
    (hs : s.Tidy env.plan env.stage env.counters) (hr : s.Refers env.stage env.counters given)
    (hc : c ∈ given) (hn : ∀ s', s.Grows env.plan env.stage env.counters s' →
      Meets (next ()) env s' (fun _ => True) post) :
    Meets (t >>= fun t => e >>= fun e => addStatement (.branch c t (some e)) >>= next) env s
      (fun _ => True) post := by
  rw [meets_bind]
  refine (ht s hs hr).imp fun ss s' hands => ?_
  rw [meets_bind]
  refine (he s' (hands.tidy hs) (hands.refers hr)).imp fun ss' s'' hands' => ?_
  rw [meets_bind, addStatement, meets_modifyHere]
  exact hn _ (.branch hands hands' (hr c hc))

end Build

end ShaderGraph
