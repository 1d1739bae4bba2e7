import ShaderGraph.Proofs.ReadingSteps

/-!
# Generated code as what nodes stand for

In a graph of values, the code of a node reads as what the node stands for, when the code of the
nodes below it does (`Reading.generateNode`). A varying must carry the same under all contexts that
it is met under (`Plan.SteadyVaryings`): it is written once, under those that it is met under first.
-/

namespace ShaderGraph

/-- What a varying carries is the same under all contexts that it is met under. -/
def Plan.SteadyVaryings (p : Plan) (roots : List NodeId) : Prop :=
  ∀ {id source name interpolation sampling around around'},
    p.node id = .ok (.varying source name interpolation sampling) →
      p.Reaches roots ⟨id, around⟩ → p.Reaches roots ⟨id, around'⟩ →
        p.typeIn around source = p.typeIn around' source ∧
          ∀ names, p.unfolded names .vertex around source = p.unfolded names .vertex around' source

namespace Reading

open Build Plan

variable {R : Reading} {around : List NodeId} {env : Env} {g : Generator} {C : Prop}
  {s s' : BuildState} {m : NodeId} {n : Node} {t : Stage} {e : Expr} {target : ValueType}

/-- The code of a node reads as what the node stands for. -/
def Serves (R : Reading) (around : List NodeId) (env : Env) (g : Generator) (c : NodeId) : Prop :=
  ∀ m, m = c ∨ R.plan.resolve c = .ok m → R.Gives around env True (g.emit m) fun e =>
    ∀ x, e = some x → R.Shows env.stage around c x

variable {c : NodeId}

/-- As a value of its own type a node stands for what it does. -/
theorem ShowsAs.own {type : ValueType} (h : R.ShowsAs t around c type e)
    (ht : R.plan.typeIn around c = some type) : R.Shows t around c e := by
  obtain ⟨u, hu, reads⟩ := h
  refine ⟨u, ?_, reads⟩
  obtain ⟨v, hv, brought⟩ := Option.bind_eq_some_iff.1 hu
  rw [Plan.brought, ht] at brought
  cases (show some v = some u by simpa [Expr.coerce, Except.toOption] using brought)
  exact hv

theorem Serves.emit (h : R.Serves around env g c) : R.Gives around env C (g.emit c) fun e =>
    ∀ x, e = some x → R.Shows env.stage around c x :=
  (h c (.inl rfl)).given

theorem Serves.statement (h : R.Serves around env g c) :
    R.Gives around env C (g.statement c) fun _ => True := h.emit.discard

/-- The value of a node reads as what the node stands for, as a value of the type. -/
theorem Serves.value (hp : R.plan.OfValues) (h : R.Serves around env g c) :
    R.Gives around env C (g.value c target) fun e => R.ShowsAs env.stage around c target e := by
  unfold Generator.value
  refine .resolve fun m hm => .located ?_
  refine (h m (.inr hm)).given.bind fun e => (Gives.typeOf hp m).bind fun type => ?_
  cases e with
  | none => exact .fail
  | some e =>
    refine .check fun _ => .ofExcept fun x hx => ?_
    rintro ⟨⟨-, shows⟩, typed⟩
    obtain ⟨u, hu, reads⟩ := shows e rfl
    obtain ⟨y, hy, reads'⟩ := reads.coerce hx
    refine ⟨y, ?_, reads'⟩
    rw [← typeIn_resolve hm] at typed
    simp [unfoldedAs, brought, hu, typed, hy, Except.toOption]

/-- The values of some nodes read as what the nodes stand for. -/
theorem Serves.values (hp : R.plan.OfValues) {ids : List (NodeId × ValueType)}
    (h : ∀ v ∈ ids, R.Serves around env g v.1) :
    R.Gives around env C (g.values ids) fun es => ∃ us,
      ids.mapM (fun v => R.plan.unfoldedAs R.names env.stage around v.1 v.2) = some us ∧
        R.code.ReadsAll env.stage es us :=
  (Gives.mapM fun v hv => (h v hv).value hp).imp
    fun _ _ ⟨us, hus, reads⟩ => ⟨us, hus, .of_forall₂ reads⟩

/-- The types of some nodes. -/
theorem types (hp : R.plan.OfValues) {ids : List NodeId} :
    R.Gives around env C (ids.mapM Build.typeOf) fun types =>
      ids.mapM (fun a => R.plan.typeIn around a) = some types := by
  refine (Gives.mapM (S := (· = ·)) fun c _ => (Gives.typeOf hp c).imp
    fun type _ ht => ⟨type, ht, rfl⟩).imp ?_
  rintro types - ⟨types', ht, hsame⟩
  rw [List.forall₂_eq_eq_eq] at hsame
  exact hsame ▸ ht

/-! ### Names -/

/-- A temporary reads as what its value stands for. -/
theorem Shows.temp {name : String} {type : ValueType} {kind : Mutability}
    {owner : Option CacheKey} (h : R.Shows t around m e)
    (hd : .declare name type (some e) kind owner ∈ R.code.body t) :
    R.Shows t around m (localName name) := by
  obtain ⟨u, hu, reads⟩ := h
  exact ⟨u, hu, .temp hd reads⟩

/-- A value that may get a name reads as it does without. -/
theorem buildTemp_gives (hp : R.plan.OfValues) {step : Build (Option Expr)}
    (h : R.Gives around env C step fun e => ∀ x, e = some x → R.Shows env.stage around m x) :
    R.Gives around env C (buildTemp m step) fun e => ∀ x, e = some x → R.Shows env.stage around m x := by
  refine Gives.boundName?.bind fun bound => ?_
  cases bound with
  | some name =>
    refine .pure ?_
    rintro ⟨-, shows⟩ x ⟨⟩
    exact shows name rfl
  | none =>
    refine (h.under And.left).bind fun e => (Gives.typeOf hp m).bind fun type => ?_
    cases e with
    | none => exact .pure fun _ x hx => nomatch hx
    | some e =>
      refine (Gives.looking (.usage m)).bind fun count => .ite (fun _ => .pure ?_) fun _ => ?_
      · rintro ⟨⟨⟨-, shows⟩, -⟩, -⟩
        exact shows
      · refine Gives.declaring (fun _ => []) (fun _ _ => Nat.le_refl _) fun name =>
          (Gives.bindValue ?_).bind fun _ => .pure ?_
        · rintro ⟨⟨⟨⟨-, shows⟩, -⟩, -⟩, declared⟩
          exact (shows e rfl).temp declared
        · rintro ⟨⟨⟨⟨⟨-, shows⟩, -⟩, -⟩, declared⟩, -⟩ x ⟨⟩
          exact (shows e rfl).temp declared

/-! ### Constants and inputs -/

theorem buildConstant_gives (hm : R.plan.resolve m = .ok m) {type : ValueType}
    {values : List Float} (hn : R.plan.node m = .ok (.const type values)) :
    R.Gives around env C (buildConstant type values) fun e => R.Shows env.stage around m e := by
  have unfolded : R.plan.unfolded R.names env.stage around m = some (constant type values) := by
    rw [Plan.unfolded_eq, unfoldedStep, built?_eq hm hn]
    rfl
  have literals : ∀ e ∈ (constantComponents type values).map (Expr.literal (type.scalarKind.getD .float)),
      ∃ kind value, e = .literal kind value := by
    intro e he
    obtain ⟨v, -, rfl⟩ := List.mem_map.1 he
    exact ⟨_, v, rfl⟩
  refine (Gives.discard (.ofExcept (P := fun _ => True) fun _ _ _ => trivial)).bind fun _ => ?_
  refine .ite (fun hs => .pure fun _ => ⟨_, unfolded, ?_⟩) fun hs => ?_
  · rw [constant, if_pos hs]
    cases constantComponents type values with
    | nil => exact .literal
    | cons v rest => exact .literal
  · refine (Gives.useType type).bind fun _ => .pure fun _ => ⟨_, unfolded, ?_⟩
    rw [constant, if_neg hs]
    exact .construct (.literals literals)

/-- An input is read under the name that it has. -/
theorem Gives.input (hu : R.plan.unfolded R.names env.stage around m =
      (R.names.input? env.stage n).map .reference) {step : Build Expr}
    (ht : (Law.tables True).Keeps env step)
    (h : ∀ s, R.Begins around env s → Meets step env s (fun _ => True) fun e s' =>
      s.Lists R.plan s' ∧ ∃ r, e = .reference r ∧ r.isInput = true ∧
        s'.naming.input? env.stage n = some r) :
    R.Gives around env C step fun e => R.Shows env.stage around m e := by
  refine .table ht h ?_
  rintro e s' ⟨r, rfl, hr, named⟩ hf
  refine ⟨.reference r, ?_, .input hr⟩
  rw [hu, hf.names.input named]
  rfl

theorem uniform_gives (hm : R.plan.resolve m = .ok m) {name : String} {type : ValueType}
    {group : Option String} {update : Cadence} {value : List Float32}
    (hn : R.plan.node m = .ok (.uniform name type group update value)) :
    R.Gives around env C (registerUniform m name type group update value >>= fun u =>
      useUniform u.1 u.2) fun e => R.Shows env.stage around m e := by
  refine .input (n := .uniform name type group update value) ?_
    (.bind (registerUniform_tables _ _ _ _ _ _) fun u => useUniform_tables _ _) fun s hs => ?_
  · rw [Plan.unfolded_eq, unfoldedStep, built?_eq hm hn]
    simp [Option.map_eq_bind]
  · rw [meets_bind]
    refine (registerUniform_listing m name type group update value hs.plan).imp ?_
    rintro u s' ⟨lists, hg, member⟩
    refine (useUniform_entry (p := R.plan) u.1 u.2).imp ?_
    rintro e s'' ⟨lists', block, inst, rfl, names⟩
    refine ⟨lists.trans lists', _, rfl, rfl, ?_⟩
    rw [hg] at names
    simp only [BuildState.naming]
    rw [names, lists'.keep (member ▸ List.cons_ne_nil _ _), member]

theorem attribute_gives (hm : R.plan.resolve m = .ok m) {name : String} {type : Option ValueType}
    (hn : R.plan.node m = .ok (.meshAttribute name type)) :
    R.Gives around env C (buildAttribute name type) fun e => R.Shows env.stage around m e := by
  refine .stage (.check fun _ => .input (n := .meshAttribute name type) ?_
    (useAttribute_tables name type) fun s hs => ?_)
  · rw [Plan.unfolded_eq, unfoldedStep, built?_eq hm hn]
    simp [Option.map_eq_bind]
  · refine (useAttribute_entry (p := R.plan) name type).imp ?_
    rintro e s' ⟨lists, x, rfl, names⟩
    refine ⟨lists, _, rfl, rfl, ?_⟩
    simp [BuildState.naming, names]

theorem builtin_gives (hm : R.plan.resolve m = .ok m) {b : Builtin}
    (hn : R.plan.node m = .ok (.builtin b)) :
    R.Gives around env C (useBuiltin b) fun e => R.Shows env.stage around m e := by
  refine .input (n := .builtin b) ?_ (useBuiltin_tables b) fun s hs => ?_
  · rw [Plan.unfolded_eq, unfoldedStep, built?_eq hm hn]
    simp [Option.map_eq_bind]
  · have reference : Returns (fun e => e = .reference (.builtin b)) (useBuiltin b) :=
      .bind fun t => .when fun _ => .bind fun _ => .pure rfl
    refine ((useBuiltin_listing b s hs.plan).and (reference env s)).imp ?_
    rintro e s' ⟨lists, rfl⟩
    exact ⟨lists, _, rfl, rfl, rfl⟩

theorem storage_gives (hm : R.plan.resolve m = .ok m) {name : String} {element : ValueType}
    {count : Option UInt32} {access : Access}
    (hn : R.plan.node m = .ok (.storageBuffer name element count access)) :
    R.Gives around env C (buildStorage name element count access) fun e =>
      R.Shows env.stage around m e := by
  refine .input (n := .storageBuffer name element count access) ?_
    (.bind (registerStorage_tables _ _ _ _) fun b => useStorage_tables (absurd trivial) _ _)
    fun s hs => ?_
  · rw [Plan.unfolded_eq, unfoldedStep, built?_eq hm hn]
    simp [Option.map_eq_bind]
  · unfold buildStorage
    rw [meets_bind]
    refine (registerStorage_listing (p := R.plan) name element count access).imp ?_
    rintro b s' ⟨lists, hb⟩
    have names : s'.namesOf (.storage name) = [b.name, b.block] := by
      rw [BuildState.namesOf, hb, Option.elim]
    have declare : Returns (fun e : Expr => e = .reference (.storage b.name)) (do
        markType b.element
        modifyHere fun h => { h with storage := appendNew h.storage name }
        return .reference (.storage b.name)) := .bind fun _ => .bind fun _ => .pure rfl
    have reference : Returns (fun e : Expr => e = .reference (.storage b.name)) (useStorage name b) :=
      .ite (.bind fun _ => .bind fun _ => declare) declare
    refine ((useStorage_listing hs.plan hb).and (reference env s')).imp ?_
    rintro e s'' ⟨lists', rfl⟩
    refine ⟨lists.trans lists', _, rfl, rfl, ?_⟩
    simp [BuildState.naming, lists'.keep (names ▸ List.cons_ne_nil _ _), names]

/-- A property that is new gets a declaration at the top. -/
theorem Goes.property {name : String} (emitted : String) (type : ValueType) (ht : t ∈ R.active)
    (hnew : (s.stages.get t).properties.get? name = none) :
    R.Brings t [emitted, emitted] C (.declare emitted type none .mutable none ∈ R.code.locals t ∧
        ∀ type', R.names.input? t (.property name type') = some (.local emitted)) s
      { s with stages := s.stages.modify t fun b => { b with
        locals := b.locals ++ [.declare emitted type none .mutable none]
        properties := b.properties.put name (type, emitted) } } := by
  let f : StageBuild → StageBuild := fun b => { b with
    locals := b.locals ++ [.declare emitted type none .mutable none]
    properties := b.properties.put name (type, emitted) }
  let s' : BuildState := { s with stages := s.stages.modify t f }
  have enters : s.Enters R.plan s' := .of_eq rfl rfl rfl rfl rfl
  have own : s'.stages.get t = f (s.stages.get t) := by rw [PerStage.get_modify, if_pos rfl]
  have other : ∀ {u}, u ≠ t → s'.stages.get u = s.stages.get u :=
    fun hu => by rw [PerStage.get_modify, if_neg hu]
  have declared : R.Fits s' → .declare emitted type none .mutable none ∈ R.code.locals t := by
    intro hf
    have locals := hf.locals t ht
    rw [own] at locals
    exact locals (List.mem_append_right _ (.head _))
  have properties : ∀ u k v, (s'.stages.get u).properties.get? k = some v →
      u = t ∧ k = name ∧ v = (type, emitted) ∨ (s.stages.get u).properties.get? k = some v := by
    intro u k v hv
    by_cases hu : u = t
    · subst hu
      rw [own, OrderedMap.get?_put] at hv
      split at hv
      · next hk => exact .inl ⟨rfl, hk, (Option.some.inj hv).symm⟩
      · exact .inr hv
    · exact .inr (other hu ▸ hv)
  have nested : ∀ u, (s'.stages.get u).nested = (s.stages.get u).nested :=
    fun u => s.stages.map_get_modify t u fun _ => rfl
  have spends : Spends t [] ([] ++ [emitted, emitted]) s s' := by
    refine (Spends.refl s).modify (fun _ hn => hn) fun n => ?_
    have more : (f (s.stages.get t)).given.count n = (s.stages.get t).given.count n +
        [emitted, emitted].count n := by
      show (((_ ++ [_]).filterMap Statement.own?).flatMap _ ++ _).count n = _
      rw [List.filterMap_append, List.flatMap_append, List.count_append, List.count_append,
        StageBuild.given, List.count_append, Nat.add_right_comm]
      rfl
    rw [more]
    omega
  refine ⟨⟨enters, .of_eq rfl rfl rfl, fun u => ?_, fun u => ?_, spends, fun _ hf => ?_,
    fun _ hf _ hr => ⟨hr.bound, fun hv => ?_, hr.written, fun u => nested u ▸ hr.assigned u⟩,
    fun _ _ _ _ => .nil⟩, fun hf _ _ => ⟨declared hf, fun type' => ?_⟩⟩
  · exact s.stages.map_get_modify t u (g := StageBuild.openBlocks) fun _ => rfl
  · exact s.stages.map_get_modify t u (g := StageBuild.output) fun _ => rfl
  · refine ⟨(enters.naming fun {u k v} hv => ?_).trans hf.names, fun u hu => ?_, fun u hu => ?_⟩
    · by_cases hu : u = t
      · subst hu
        rw [own, OrderedMap.get?_put, if_neg]
        · exact hv
        · rintro rfl
          cases hnew.symm.trans hv
      · exact (other hu).symm ▸ hv
    · have locals := hf.locals u hu
      by_cases he : u = t
      · subst he
        rw [own] at locals
        exact fun x hx => locals (List.mem_append_left _ hx)
      · exact other he ▸ locals
    · exact nested u ▸ hf.body u hu
  · rcases properties _ _ _ hv with ⟨rfl, rfl, rfl⟩ | hv
    · exact ⟨_, _, _, declared hf⟩
    · exact hr.property hv
  · refine hf.names.input ?_
    show ((s'.stages.get t).properties.get? name).map _ = _
    rw [own, OrderedMap.get?_put, if_pos rfl]
    rfl

theorem property_gives (hm : R.plan.resolve m = .ok m) {name : String} {type : ValueType}
    (hn : R.plan.node m = .ok (.property name type)) :
    R.Gives around env C (buildProperty name type) fun e => R.Shows env.stage around m e := by
  have shows : ∀ {emitted type' kind owner},
      .declare emitted type' none kind owner ∈ R.code.locals env.stage →
      R.names.input? env.stage (.property name type) = some (.local emitted) →
        R.Shows env.stage around m (localName emitted) := by
    intro emitted type' kind owner hd hi
    refine ⟨_, ?_, .property hd⟩
    rw [Plan.unfolded_eq, unfoldedStep, built?_eq hm hn]
    simp [hi]
  intro s hs
  unfold buildProperty
  rw [meets_bind, meets_here]
  cases hg : (s.stages.get env.stage).properties.get? name with
  | some v =>
    refine meets_check fun _ => ⟨.refl s, fun hf _ hr => ?_⟩
    obtain ⟨type', kind, owner, hd⟩ := hr.property hg
    refine shows hd (hf.names.input ?_)
    show ((s.stages.get env.stage).properties.get? name).map _ = _
    rw [hg]
    rfl
  | none =>
    rw [meets_bind]
    have typed := (useType_listing (p := R.plan) type s hs.plan).and
      ((Gives.useType (C := C) type) s hs)
    refine typed.imp ?_
    rintro u s₁ ⟨lists, brings⟩
    rw [meets_bind]
    refine meets_claimLocal fun emitted free => ?_
    have new : (s₁.stages.get env.stage).properties.get? name = none := by
      have same : (s₁.stages.get env.stage).properties = (s.stages.get env.stage).properties :=
        congrArg EntryPoint.properties (congrFun lists.bodies env.stage)
      rw [same]
      exact hg
    let taken : StageBuild → StageBuild := fun b =>
      { b with names := (s₁.stages.get env.stage).names.reserve emitted }
    let s₂ : BuildState := { s₁ with stages := s₁.stages.modify env.stage taken }
    have still : (s₂.stages.get env.stage).properties.get? name = none := by
      rw [PerStage.get_modify, if_pos rfl]
      exact new
    have declared := Goes.property (C := C) emitted type hs.asked still
    have whole := Gives.claimed (f := taken) (fun _ => ⟨rfl, rfl, rfl, rfl, rfl⟩) rfl free
      (fun _ => Nat.le_refl _) declared
    refine (Brings.after brings.goes whole fun _ hC _ => hC).imp fun _ hd => ?_
    exact shows hd.1 (hd.2 type)

/-! ### Texture samples -/

theorem useTexture_gives {name : String} : R.Gives around env C (useTexture name) fun x =>
    R.names.texture? name = some (x.name, x.sampler) := by
  refine .table (T := fun x s' => s'.namesOf (.texture name) = [x.name, x.sampler])
    (useTexture_tables name) (fun _ _ => useTexture_entry name) fun x s' named hf => ?_
  refine hf.names.texture ?_
  simp only [BuildState.naming]
  rw [named]

theorem texture_gives (hp : R.plan.OfValues) (hm : R.plan.resolve m = .ok m) {name : String}
    {uv : NodeId} {level : Option NodeId} (hn : R.plan.node m = .ok (.texture name uv level))
    (huv : R.Serves around env g uv) (hl : ∀ l ∈ level, R.Serves around env g l) :
    R.Gives around env C (buildTexture g name uv level) fun e => R.Shows env.stage around m e := by
  refine (huv.value hp).bind fun uv' => ?_
  cases level with
  | none =>
    refine .bind (P := fun l => l = if env.stage = .fragment then none else some (.literal .float 0))
      (.stage (.pure fun _ => rfl)) fun l => useTexture_gives.bind fun x => .pure ?_
    rintro ⟨⟨⟨-, u, hu, reads⟩, rfl⟩, named⟩
    refine ⟨.sample x.name x.sampler u (if env.stage = .fragment then none else some (.literal .float 0)),
      ?_, .sample reads ?_⟩
    · rw [Plan.unfolded_eq, unfoldedStep, built?_eq hm hn]
      simp [named, bind_unfolded_brought, hu]
    · split
      · exact .nil
      · exact .single .literal
  | some level =>
    refine (((hl level rfl).value hp).bind fun l => .pure (P := fun l' => ∃ e,
      l' = some e ∧ R.ShowsAs env.stage around level .float e) fun h => ⟨l, rfl, h.2⟩).bind
        fun l => useTexture_gives.bind fun x => .pure ?_
    rintro ⟨⟨⟨-, u, hu, reads⟩, e, rfl, v, hv, reads'⟩, named⟩
    refine ⟨.sample x.name x.sampler u (some v), ?_, .sample reads (.single reads')⟩
    rw [Plan.unfolded_eq, unfoldedStep, built?_eq hm hn]
    simp [named, bind_unfolded_brought, hu, hv]

/-! ### Operators and math methods -/

theorem operator_gives (hp : R.plan.OfValues) (hm : R.plan.resolve m = .ok m) {op : BinaryOp}
    {left right : NodeId} (hn : R.plan.node m = .ok (.operator op left right))
    (hl : R.Serves around env g left) (hr : R.Serves around env g right) :
    R.Gives around env C (buildOperator g op left right) fun e => R.Shows env.stage around m e := by
  refine (Gives.typeOf hp left).bind fun l => (Gives.typeOf hp right).bind fun r => ?_
  refine (Gives.ofExcept fun result h _ => h).bind fun result => ?_
  refine (hl.value hp).bind fun left' => (hr.value hp).bind fun right' => ?_
  have unfolded : ∀ {u v}, R.plan.typeIn around left = some l →
      R.plan.typeIn around right = some r → op.resultType l r = .ok result →
      R.plan.unfoldedAs R.names env.stage around left (op.operandTypes l r result).1 = some u →
      R.plan.unfoldedAs R.names env.stage around right (op.operandTypes l r result).2 = some v →
      R.plan.unfolded R.names env.stage around m =
        some (if op = .rem && result.scalarKind = some .float then .remainder u v
          else .operator op u v) := by
    intro u v hl hr hresult hu hv
    have result : R.plan.typeIn around m = some result := by
      rw [typeIn_eq, typeStep, built?_eq hm hn]
      simp [hl, hr, hresult, Except.toOption]
    rw [Plan.unfolded_eq, unfoldedStep, built?_eq hm hn]
    simp [hl, hr, result, bind_unfolded_brought, hu, hv]
  refine .ite (fun rem => .pure ?_) fun rem => .pure ?_
  · rintro ⟨⟨⟨⟨⟨-, hl⟩, hr⟩, hresult⟩, u, hu, reads⟩, v, hv, reads'⟩
    refine ⟨_, unfolded hl hr hresult hu hv, ?_⟩
    rw [if_pos rem]
    exact .remainder reads reads'
  · rintro ⟨⟨⟨⟨⟨-, hl⟩, hr⟩, hresult⟩, u, hu, reads⟩, v, hv, reads'⟩
    refine ⟨_, unfolded hl hr hresult hu hv, ?_⟩
    rw [if_neg rem]
    exact .operator reads reads'

theorem unary_gives (hp : R.plan.OfValues) (hm : R.plan.resolve m = .ok m) {op : UnaryOp}
    {operand : NodeId} (hn : R.plan.node m = .ok (.unary op operand))
    (h : R.Serves around env g operand) :
    R.Gives around env C (buildUnary g op operand) fun e =>
      ∀ x, e = some x → R.Shows env.stage around m x := by
  refine (Gives.typeOf hp operand).bind fun type => ?_
  refine (Gives.discard (.ofExcept fun _ _ _ => trivial)).bind fun _ => h.emit.bind fun e => .pure ?_
  rintro ⟨-, shows⟩ x hx
  obtain ⟨y, rfl, rfl⟩ := Option.map_eq_some_iff.1 hx
  obtain ⟨u, hu, reads⟩ := shows y rfl
  refine ⟨.unary op u, ?_, .unary reads⟩
  rw [Plan.unfolded_eq, unfoldedStep, built?_eq hm hn]
  simp [hu]

theorem math_gives (hp : R.plan.OfValues) (hm : R.plan.resolve m = .ok m) {method : MathMethod}
    {args : List NodeId} (hn : R.plan.node m = .ok (.math method args))
    (h : ∀ a ∈ args, R.Serves around env g a) :
    R.Gives around env C (buildMath g m method args) fun e => R.Shows env.stage around m e := by
  refine .stage (.check fun _ => ?_)
  refine (Gives.typeOf hp m).bind fun result => (types hp).bind fun types => ?_
  refine (Gives.ofExcept fun targets h _ => h).bind fun targets => ?_
  refine (Serves.values hp fun v hv => h v.1 (List.of_mem_zip hv).1).bind fun es => .pure ?_
  rintro ⟨⟨⟨⟨-, hresult⟩, htypes⟩, htargets⟩, us, hus, reads⟩
  refine ⟨.math method us, ?_, .math reads⟩
  rw [Plan.unfolded_eq, unfoldedStep, built?_eq hm hn]
  simp only [unfoldedAs, Option.bind_eq_bind] at hus
  simp [hresult, htypes, htargets, hus, Except.toOption]

/-! ### Putting together and taking apart -/

theorem split_gives (hp : R.plan.OfValues) (hm : R.plan.resolve m = .ok m) {source : NodeId}
    {components : String} (hn : R.plan.node m = .ok (.split source components))
    (h : R.Serves around env g source) :
    R.Gives around env C (buildSplit g source components) fun e =>
      ∀ x, e = some x → R.Shows env.stage around m x := by
  refine (Gives.typeOf hp source).bind fun type => ?_
  refine (Gives.discard (.ofExcept fun _ _ _ => trivial)).bind fun _ => ?_
  refine (Gives.ofExcept fun cs h _ => h).bind fun cs => h.emit.bind fun e => .pure ?_
  rintro ⟨⟨⟨⟨-, ht⟩, -⟩, hcs⟩, shows⟩ x hx
  obtain ⟨y, rfl, rfl⟩ := Option.map_eq_some_iff.1 hx
  obtain ⟨u, hu, reads⟩ := shows y rfl
  refine ⟨.swizzle u cs, ?_, .swizzle reads⟩
  rw [Plan.unfolded_eq, unfoldedStep, built?_eq hm hn]
  simp [ht, hcs, hu, Except.toOption]

theorem join_gives (hp : R.plan.OfValues) (hm : R.plan.resolve m = .ok m) {parts : List NodeId}
    {explicit : Option ValueType} (hn : R.plan.node m = .ok (.join parts explicit))
    (h : ∀ a ∈ parts, R.Serves around env g a) :
    R.Gives around env C (buildJoin g m parts) fun e => R.Shows env.stage around m e := by
  refine (Gives.typeOf hp m).bind fun type => ?_
  have part : ∀ a ∈ parts, R.Gives around env True
      (do g.value a ((← Build.typeOf a).recast (type.scalarKind.getD .float))) fun e => ∃ u,
        (do
          let target := (← R.plan.typeIn around a).recast (type.scalarKind.getD .float)
          R.plan.unfoldedAs R.names env.stage around a target) = some u ∧
        R.code.Reads env.stage e u := by
    intro a ha
    refine (Gives.typeOf hp a).bind fun own => ((h a ha).value hp).imp ?_
    rintro e ⟨-, ht⟩ ⟨u, hu, reads⟩
    exact ⟨u, by rw [ht]; exact hu, reads⟩
  refine (Gives.mapM part).bind fun es => (Gives.useType type).bind fun _ => .pure ?_
  rintro ⟨⟨⟨-, ht⟩, us, hus, reads⟩, -⟩
  refine ⟨.construct type us, ?_, .construct (.of_forall₂ reads)⟩
  rw [Plan.unfolded_eq, unfoldedStep, built?_eq hm hn]
  simp only [unfoldedAs, Option.bind_eq_bind] at hus
  simp [ht, hus]

theorem convert_gives (hp : R.plan.OfValues) (hm : R.plan.resolve m = .ok m) {source : NodeId}
    {target : ValueType} (hn : R.plan.node m = .ok (.convert source target))
    (h : R.Serves around env g source) :
    R.Gives around env C (buildConvert g source target) fun e =>
      ∀ x, e = some x → R.Shows env.stage around m x := by
  refine (Gives.typeOf hp source).bind fun type => h.emit.bind fun e => ?_
  cases e with
  | none => exact .check fun _ => .pure fun _ x hx => nomatch hx
  | some e =>
    refine (Gives.ofExcept fun x hx _ => hx).bind fun x => .pure ?_
    rintro ⟨⟨⟨-, ht⟩, shows⟩, hx⟩ x' ⟨⟩
    obtain ⟨u, hu, reads⟩ := shows e rfl
    obtain ⟨y, hy, reads'⟩ := reads.convert hx
    refine ⟨y, ?_, reads'⟩
    rw [Plan.unfolded_eq, unfoldedStep, built?_eq hm hn]
    simp [ht, hu, hy, Except.toOption]

theorem struct_gives (hp : R.plan.OfValues) (hm : R.plan.resolve m = .ok m) {layout : NodeId}
    {values : List NodeId} (hn : R.plan.node m = .ok (.struct layout values))
    (h : ∀ a ∈ values, R.Serves around env g a) :
    R.Gives around env C (buildStruct g m values) fun e => R.Shows env.stage around m e := by
  refine (Gives.typeOf hp m).bind fun type => .structMembers fun members hmembers => .check fun _ => ?_
  refine (Serves.values hp fun v hv => h v.1 (List.of_mem_zip hv).1).bind fun es => ?_
  refine (Gives.useType type).bind fun _ => .pure ?_
  rintro ⟨⟨⟨-, ht⟩, us, hus, reads⟩, -⟩
  refine ⟨.construct type us, ?_, .construct reads⟩
  rw [Plan.unfolded_eq, unfoldedStep, built?_eq hm hn]
  simp only [unfoldedAs, Option.bind_eq_bind] at hus
  simp [ht, hmembers, hus]

theorem array_gives (hp : R.plan.OfValues) (hm : R.plan.resolve m = .ok m) {element : ValueType}
    {values : List NodeId} (hn : R.plan.node m = .ok (.array element values))
    (h : ∀ a ∈ values, R.Serves around env g a) :
    R.Gives around env C (buildArray g element values) fun e => R.Shows env.stage around m e := by
  refine (Gives.ofExcept fun type ht _ => ht).bind fun type => ?_
  refine (Serves.values hp fun v hv => ?_).bind fun es => (Gives.useType type).bind fun _ => .pure ?_
  · obtain ⟨a, ha, rfl⟩ := List.mem_map.1 hv
    exact h a ha
  · rintro ⟨⟨⟨-, ht⟩, us, hus, reads⟩, -⟩
    refine ⟨.construct type us, ?_, .construct reads⟩
    have result : R.plan.typeIn around m = some type := by
      rw [typeIn_eq, typeStep, built?_eq hm hn]
      simp [ht, Except.toOption]
    rw [Plan.unfolded_eq, unfoldedStep, built?_eq hm hn]
    simp only [List.mapM_map, Function.comp_def, unfoldedAs, Option.bind_eq_bind] at hus
    simp [result, hus]

theorem member_gives (hp : R.plan.OfValues) (hm : R.plan.resolve m = .ok m) {base : NodeId}
    {name : String} (hn : R.plan.node m = .ok (.member base name))
    (h : R.Serves around env g base) :
    R.Gives around env C (buildMember g base name) fun e =>
      ∀ x, e = some x → R.Shows env.stage around m x := by
  refine (Gives.typeOf hp base).bind fun type => ?_
  refine (Gives.discard (.looking (.memberType type name))).bind fun _ => h.emit.bind fun e => .pure ?_
  rintro ⟨-, shows⟩ x hx
  obtain ⟨y, rfl, rfl⟩ := Option.map_eq_some_iff.1 hx
  obtain ⟨u, hu, reads⟩ := shows y rfl
  refine ⟨.member u name, ?_, .member reads⟩
  rw [Plan.unfolded_eq, unfoldedStep, built?_eq hm hn]
  simp [hu]

theorem index_gives (hp : R.plan.OfValues) (hm : R.plan.resolve m = .ok m) {base i : NodeId}
    (hn : R.plan.node m = .ok (.index base i)) (hb : R.Serves around env g base)
    (hi : R.Serves around env g i) :
    R.Gives around env C (buildIndex g base i) fun e =>
      ∀ x, e = some x → R.Shows env.stage around m x := by
  refine hb.emit.bind fun e => ?_
  refine (Gives.typeOf hp base).bind fun type => (Gives.typeOf hp i).bind fun index => ?_
  refine (Gives.discard (.looking (.elementType type index))).bind fun _ => ?_
  refine (Gives.looking (.checkIndex type i)).bind fun _ => (hi.value hp).bind fun i' => .pure ?_
  rintro ⟨⟨⟨⟨⟨⟨-, shows⟩, -⟩, ht⟩, -⟩, -⟩, shows'⟩ x hx
  obtain ⟨y, rfl, rfl⟩ := Option.map_eq_some_iff.1 hx
  obtain ⟨u, hu, reads⟩ := shows y rfl
  obtain ⟨v, hv, reads'⟩ := shows'.own ht
  refine ⟨.index u v, ?_, .index reads reads'⟩
  rw [Plan.unfolded_eq, unfoldedStep, built?_eq hm hn]
  simp [hu, hv]

/-! ### Conditionals and sequences -/

theorem choice_gives (hp : R.plan.OfValues) (hm : R.plan.resolve m = .ok m)
    {condition thenNode elseNode : NodeId} {type : ValueType} {c : Expr}
    (hn : R.plan.node m = .ok (.conditional condition thenNode (some elseNode)))
    (hC : C → R.plan.typeIn around m = some type ∧ R.ShowsAs env.stage around condition .bool c)
    (ht : R.Serves around env g thenNode) (he : R.Serves around env g elseNode) :
    R.Gives around env C (buildChoice g m type c thenNode elseNode) fun e =>
      ∀ x, e = some x → R.Shows env.stage around m x := by
  have unfolded : ∀ {u y y'}, R.plan.typeIn around m = some type →
      R.plan.unfoldedAs R.names env.stage around condition .bool = some u →
      R.plan.unfoldedAs R.names env.stage around thenNode type = some y →
      R.plan.unfoldedAs R.names env.stage around elseNode type = some y' →
      R.plan.unfolded R.names env.stage around m = some (.select u y y') := by
    intro u y y' ht hu hy hy'
    rw [Plan.unfolded_eq, unfoldedStep, built?_eq hm hn]
    simp [ht, bind_unfolded_brought, hu, hy, hy']
  refine (Gives.looking (.arePure _)).bind fun pure => .ite (fun _ => ?_) fun _ => ?_
  · refine buildTemp_gives hp ((ht.value hp).bind fun y => (he.value hp).bind fun y' => .pure ?_)
    rintro ⟨⟨⟨hC', -⟩, y₁, hy₁, reads₁⟩, y₂, hy₂, reads₂⟩ x ⟨⟩
    obtain ⟨type, u, hu, reads⟩ := hC hC'
    exact ⟨_, unfolded type hu hy₁ hy₂, .select reads reads₁ reads₂⟩
  · refine Gives.declaring (fun result => [result] ++ [result]) (fun _ _ => Nat.le_refl _)
      fun result => ?_
    have shows : ∀ {ss ss'}, C → .branch c ss (some ss') ∈ R.code.body env.stage →
        (∃ a, ss.getLast? = some (.assign (localName result) a) ∧
          R.ShowsAs env.stage around thenNode type a) →
        (∃ a, ss'.getLast? = some (.assign (localName result) a) ∧
          R.ShowsAs env.stage around elseNode type a) →
        R.Shows env.stage around m (localName result) := by
      rintro ss ss' hC' branch ⟨a₁, last₁, y₁, hy₁, reads₁⟩ ⟨a₂, last₂, y₂, hy₂, reads₂⟩
      obtain ⟨type, u, hu, reads⟩ := hC hC'
      exact ⟨_, unfolded type hu hy₁ hy₂, .branch branch last₁ last₂ reads reads₁ reads₂⟩
    refine .branch (.ending (ht.value hp)) (.ending (he.value hp)) ?_
    refine (Gives.bindValue ?_).bind fun _ => .pure ?_
    · rintro ⟨⟨⟨hC', -⟩, -⟩, _, _, branch, first, second⟩
      exact shows hC' branch first second
    · rintro ⟨⟨⟨⟨hC', -⟩, -⟩, _, _, branch, first, second⟩, -⟩ x ⟨⟩
      exact shows hC' branch first second

theorem conditional_gives (hp : R.plan.OfValues) (hm : R.plan.resolve m = .ok m)
    {condition thenNode : NodeId} {elseNode : Option NodeId}
    (hn : R.plan.node m = .ok (.conditional condition thenNode elseNode))
    (hc : R.Serves around env g condition) (ht : R.Serves around env g thenNode)
    (he : ∀ e ∈ elseNode, R.Serves around env g e) :
    R.Gives around env C (buildConditional g m condition thenNode elseNode) fun e =>
      ∀ x, e = some x → R.Shows env.stage around m x := by
  refine Gives.boundName?.bind fun bound => ?_
  cases bound with
  | some name =>
    refine .pure ?_
    rintro ⟨-, shows⟩ x ⟨⟩
    exact shows name rfl
  | none =>
    refine (Gives.typeOf hp m).bind fun type => (hc.value hp).bind fun c => ?_
    cases elseNode with
    | none =>
      refine .hold (.statements ht.statement) fun _ => ?_
      exact .pure fun _ x hx => nomatch hx
    | some elseNode =>
      refine .ite (fun _ => ?_) fun _ => ?_
      · refine Owes.branch (.statements ht.statement) (.statements (he _ rfl).statement) ?_
        exact .pure fun _ x hx => nomatch hx
      · exact choice_gives hp hm hn (fun h => ⟨h.1.2, h.2⟩) ht (he _ rfl)

/-- What a node stands for that stands for another. -/
theorem Serves.same {around' : List NodeId} {c : NodeId} {env' : Env}
    (h : R.Serves around' env' g c) (hs : R.plan.unfolded R.names env'.stage around m =
      R.plan.unfolded R.names env'.stage around' c) :
    R.Gives around' env' C (g.emit c) fun e => ∀ x, e = some x → R.Shows env'.stage around m x := by
  refine h.emit.imp fun e _ shows x hx => ?_
  obtain ⟨u, hu, reads⟩ := shows x hx
  exact ⟨u, hs.trans hu, reads⟩

theorem stack_gives (hm : R.plan.resolve m = .ok m) {nodes : List NodeId}
    {output : Option NodeId} (hn : R.plan.node m = .ok (.stack nodes output))
    (h : ∀ c ∈ nodes, R.Serves around env g c) (ho : ∀ o ∈ output, R.Serves around env g o) :
    R.Gives around env C (buildStack g nodes output) fun e =>
      ∀ x, e = some x → R.Shows env.stage around m x := by
  refine (Gives.forM fun c hc => (h c hc).statement).bind fun _ => ?_
  cases output with
  | none => exact .pure fun _ x hx => nomatch hx
  | some o =>
    refine (ho o rfl).same ?_
    rw [Plan.unfolded_eq, unfoldedStep, built?_eq hm hn]
    rfl

/-! ### Varyings -/

theorem Carried.shows {n : String} {t' : Stage} {source : NodeId} {name : Option String}
    {interpolation : Interpolation} {sampling : Option Sampling}
    (hv : R.plan.SteadyVaryings R.roots) (hm : R.plan.resolve m = .ok m)
    (hr : R.plan.Reaches R.roots ⟨m, around⟩)
    (hn : R.plan.node m = .ok (.varying source name interpolation sampling)) (h : R.Carried m n) :
    R.Shows t around m (.reference (.varying t' n)) := by
  obtain ⟨source', around', ⟨_, _, _, hn'⟩, hr', value, u, assigned, hu, carries, reads⟩ := h
  cases hn.symm.trans hn'
  refine ⟨u, ?_, .varying assigned reads carries⟩
  rw [Plan.unfolded_eq, unfoldedStep, built?_eq hm hn]
  exact ((hv hn hr hr').2 R.names).trans hu

/-- A varying gets its location. -/
theorem Goes.locate {v : VaryingEntry} (hv : R.plan.Carries R.roots R.active m v)
    (entry : s.namesOf (.varying m) = [v.name]) :
    Meets (locateVarying m v) env s (fun _ => True) fun _ s' =>
      R.Goes t [] [] (R.Carried m v.name) s s' := by
  obtain ⟨_, _, _, hn⟩ := hv.node
  have lists : Meets (locateVarying m v) env s (fun _ => True) fun _ s' => s.Lists R.plan s' :=
    locateVarying_listing hn entry
  unfold locateVarying at lists ⊢
  rw [meets_modify] at lists ⊢
  split
  · exact .refl s
  · next hw =>
    rw [if_neg hw] at lists
    refine .of_bodies lists ⟨.refl _, fun hs => ⟨hs.frames, hs.types, fun {id w} hg => ?_⟩⟩
      fun hc hr => hr.keep lists.toEnters (.refl _) (fun _ => rfl) (fun _ => rfl) (fun _ ha => ha)
        fun {id} hid => ?_
    · rw [OrderedMap.get?_put] at hg
      split at hg
      · next he =>
        cases hg
        exact he ▸ ⟨hv.node, hv.vertex, hv.met⟩
      · exact hs.varyings hg
    · by_cases he : id = m
      · subst he
        refine .inr fun n hx => ?_
        rw [lists.keep (entry ▸ List.cons_ne_nil _ _), entry] at hx
        exact List.cons.inj hx |>.1 ▸ hc
      · refine .inl ?_
        rw [isWritten, OrderedMap.get?_put, if_neg he] at hid
        exact hid

/-- The vertex program writes a varying that it has not written. -/
theorem writeVarying_gives (hp : R.plan.OfValues) (hsteady : R.plan.SteadyVaryings R.roots)
    (hcarries : R.Carries) {v : VaryingEntry} (hv : R.plan.Carries R.roots R.active m v)
    (hr : R.plan.Reaches R.roots ⟨m, around⟩) (hs : R.Begins around env s)
    (entry : s.namesOf (.varying m) = [v.name])
    (hw : R.Recalls s → v.location.isSome = true → R.Carried m v.name)
    (h : R.Serves around (within env .vertex) g v.source) :
    Meets (writeVarying g m v) env s (fun _ => True) fun _ s' =>
      R.Brings env.stage [] C (R.Carried m v.name) s s' := by
  obtain ⟨_, _, _, hn⟩ := hv.node
  obtain ⟨around', hr', typed⟩ := hv.met
  have own : R.plan.typeIn around v.source = some v.type := (hsteady hn hr hr').1.trans typed
  let named : Prop := R.names.varying? m = some v.name
  have assigned : R.Gives around (within env .vertex) (C ∧ named) (do
      let e ← g.value v.source v.type
      addStatement (.assign (.reference (.varying .vertex v.name)) e)
      modifyHere fun b => { b with varyings := appendNew b.varyings m })
      fun _ => R.Writes v.name around v.source := by
    refine (h.value hp).bind fun e => (Gives.add rfl rfl ?_).bind fun _ => Gives.mark.imp ?_
    · rintro ⟨⟨-, named⟩, value⟩ - n x ⟨⟩
      rw [stage_within] at value
      obtain ⟨u, hu, reads⟩ := value.own own
      exact ⟨u, hcarries hn hr named hu, reads⟩
    · rw [stage_within]
      rintro - ⟨⟨⟨-, named⟩, value⟩, stated⟩ -
      obtain ⟨u, hu, reads⟩ := value.own own
      exact ⟨e, u, stated, hu, hcarries hn hr named hu, reads⟩
  have inside : R.Begins around (within env .vertex) s := by
    refine ⟨lexical_within .vertex hs.lexical, ?_, ?_, hs.named⟩
    · rw [stage_within]
      exact hv.vertex
    · unfold within
      split
      · exact hs.loops
      · rfl
  refine (meets_ite _ _ _).2 ⟨fun located => ⟨.refl s, fun _ _ hr => hw hr located⟩, fun _ => ?_⟩
  show Meets (inStage .vertex _ >>= _) env s _ _
  rw [meets_bind, meets_inStage]
  refine (assigned s inside).imp fun _ s₁ brings => ?_
  -- the varying has its name in what fits
  have brings : R.Brings (within env .vertex).stage [] C (R.Writes v.name around v.source) s s₁ :=
    brings.known fun hf => hf.names.varying (by simp [BuildState.naming, entry])
  have entry₁ : s₁.namesOf (.varying m) = [v.name] :=
    (brings.goes.enters.keep (entry ▸ List.cons_ne_nil _ _)).trans entry
  refine (Goes.locate (t := env.stage) hv entry₁).imp fun _ s₂ located => ?_
  refine .after brings.goes.elsewhere ⟨located, fun _ hc _ => hc⟩ fun hf hC hr' => ?_
  exact ⟨v.source, around, ⟨_, _, _, hn⟩, hr, brings.gives hf hC hr'⟩

theorem varying_gives (hp : R.plan.OfValues) (hsteady : R.plan.SteadyVaryings R.roots)
    (hcarries : R.Carries)
    (hm : R.plan.resolve m = .ok m) (hr : R.plan.Reaches R.roots ⟨m, around⟩) {source : NodeId}
    {name : Option String} {interpolation : Interpolation} {sampling : Option Sampling}
    (hn : R.plan.node m = .ok (.varying source name interpolation sampling))
    (h : R.Serves around (within env .vertex) g source) :
    R.Gives around env C (buildVarying g m source name interpolation sampling) fun e =>
      R.Shows env.stage around m e := by
  refine .stage (.check fun _ => ?_)
  intro s hs
  rw [meets_bind]
  have location := @registerVarying_location env m source name interpolation sampling s
  have lexical := registerVarying_lexical hp hn hr s hs.lexical
  have entered := (registerVarying_entry hs.plan hn).and (registerVarying_still hn hs.named.sources)
  refine ((entered.and location).and (lexical.mono (fun _ _ => trivial) fun _ _ h => h)).imp ?_
  rintro v s₁ ⟨⟨⟨⟨lists, hv⟩, ⟨still, -⟩, -⟩, unwritten, hw⟩, widens⟩
  have cache : s₁.cache = s.cache := congrArg Still.cache still
  have goes : R.Goes env.stage [] [] C s s₁ := .of_lists lists widens (fun _ => by rw [cache]) unwritten
  have carries : R.plan.Carries R.roots R.active m v := (widens.lexical hs.lexical.2.2.1).varyings hv
  obtain ⟨_, _, _, hn'⟩ := carries.node
  cases hn.symm.trans hn'
  have entry : s₁.namesOf (.varying m) = [v.name] := by rw [BuildState.namesOf, hv, Option.elim]
  rw [meets_bind]
  refine (writeVarying_gives (C := C) hp hsteady hcarries carries hr (hs.mono goes) entry ?_ h).imp ?_
  · intro recalls located
    exact recalls.written ((unwritten m).trans (hw ▸ located)) entry
  · intro _ s₂ brings
    have rest : R.Gives around env (R.Carried m v.name) (do
        if env.stage = .fragment then modifyHere fun b =>
          { b with varyings := appendNew b.varyings m }
        return .reference (.varying env.stage v.name)) fun e => R.Shows env.stage around m e :=
      .ite (fun _ => Gives.mark.bind fun _ => .pure fun hc => hc.1.shows hsteady hm hr hn)
        fun _ => .pure fun hc => hc.shows hsteady hm hr hn
    refine (rest s₂ ((hs.mono goes).mono brings.goes)).imp fun e s₃ brings' => ?_
    exact .after goes (.after brings.goes brings' brings.gives) fun _ hC _ => hC

/-! ### All nodes -/

/-- The code of a node reads as what the node stands for when the code of the nodes that it is
evaluated from does. -/
theorem generateNode_gives (hp : R.plan.OfValues) (hsteady : R.plan.SteadyVaryings R.roots)
    (hcarries : R.Carries)
    (hm : R.plan.resolve m = .ok m) (hn : R.plan.node m = .ok n)
    (hr : R.plan.Reaches R.roots ⟨m, around⟩)
    (h : ∀ c outer env', (∀ m', R.plan.resolve c = .ok m' → R.plan.Step ⟨m, around⟩ ⟨m', outer⟩) →
      R.Serves outer env' g c) :
    R.Gives around env True (generateNode g m n) fun e =>
      ∀ x, e = some x → R.Shows env.stage around m x := by
  have child : n.isLexical = false → ∀ c ∈ n.children, ∀ env', R.Serves around env' g c :=
    fun hl c hc env' => h c around env' fun m' hm' => .child hn hl hc hm'
  have some_ : ∀ {C : Prop} {step : Build Expr},
      (R.Gives around env C step fun e => R.Shows env.stage around m e) →
      R.Gives around env C (some <$> step) fun e => ∀ x, e = some x → R.Shows env.stage around m x := by
    intro C step hstep
    refine hstep.map ?_
    rintro e - shows x ⟨⟩
    exact shows
  cases n with
  | const type values => exact some_ (buildConstant_gives hm hn)
  | uniform name type group update value =>
    intro s hs
    have uniform := uniform_gives (C := True) hm hn s hs
    show Meets (registerUniform m name type group update value >>= _) env s _ _
    rw [meets_bind] at uniform ⊢
    refine uniform.imp fun u s' use => ?_
    rw [meets_map]
    refine use.imp fun e s'' brings => brings.imp ?_
    rintro - shows x ⟨⟩
    exact shows
  | meshAttribute name type => exact some_ (attribute_gives hm hn)
  | varying source name interpolation sampling =>
    exact some_ (varying_gives hp hsteady hcarries hm hr hn (child rfl source (.head _) _))
  | property name type => exact some_ (property_gives hm hn)
  | builtin b => exact some_ (builtin_gives hm hn)
  | texture name uv level =>
    exact buildTemp_gives hp (some_ (texture_gives hp hm hn (child rfl uv (.head _) _)
      fun l hl => child rfl l (.tail _ (Option.mem_toList.2 hl)) _))
  | storageBuffer name element count access => exact some_ (storage_gives hm hn)
  | operator op left right =>
    exact buildTemp_gives hp (some_ (operator_gives hp hm hn (child rfl left (.head _) _)
      (child rfl right (.tail _ (.head _)) _)))
  | unary op operand => exact buildTemp_gives hp (unary_gives hp hm hn (child rfl operand (.head _) _))
  | math method args =>
    exact buildTemp_gives hp (some_ (math_gives hp hm hn fun a ha => child rfl a ha _))
  | split source components => exact split_gives hp hm hn (child rfl source (.head _) _)
  | join parts explicit =>
    exact buildTemp_gives hp (some_ (join_gives hp hm hn fun a ha => child rfl a ha _))
  | convert source target => exact buildTemp_gives hp (convert_gives hp hm hn (child rfl source (.head _) _))
  | conditional condition thenNode elseNode =>
    exact conditional_gives hp hm hn (child rfl condition (.head _) _)
      (child rfl thenNode (.tail _ (.head _)) _)
      fun e he => child rfl e (.tail _ (.tail _ (Option.mem_toList.2 he))) _
  | stack nodes output =>
    exact stack_gives hm hn (fun c hc => child rfl c (List.mem_append_left _ hc) _)
      fun o ho => child rfl o (List.mem_append_right _ (Option.mem_toList.2 ho)) _
  | struct layout values =>
    exact buildTemp_gives hp (some_ (struct_gives hp hm hn fun a ha => child rfl a (.tail _ ha) _))
  | array element values =>
    exact buildTemp_gives hp (some_ (array_gives hp hm hn fun a ha => child rfl a ha _))
  | member base name => exact member_gives hp hm hn (child rfl base (.head _) _)
  | index base i =>
    exact index_gives hp hm hn (child rfl base (.head _) _) (child rfl i (.tail _ (.head _)) _)
  | context inner values =>
    refine .inContext hn fun frame => ?_
    refine Serves.same (h inner (m :: around) _ fun m' hm' => .inside hn hm') ?_
    rw [Plan.unfolded_eq, unfoldedStep, built?_eq hm hn]
    rfl
  | contextValue key fallback =>
    refine .withContextValue fun c outer frames hl => ?_
    refine Serves.same (h c outer _ fun m' hm' => ?_) (unfolded_contextValue hm hn hl)
    rcases hl with hl | ⟨hl, rfl, rfl⟩
    · exact .lent hn hl hm'
    · exact .fallback hn hl hm'
  | cache inner shares =>
    refine .inCacheScope fun scope => ?_
    refine Serves.same (child rfl inner (.head _) _) ?_
    rw [Plan.unfolded_eq, unfoldedStep, built?_eq hm hn]
    rfl
  | jump j =>
    refine .outside fun hl => .bind (P := fun _ => True) (.read ?_) fun _ => .pure fun _ x hx =>
      absurd hx.symm (Option.some_ne_none x)
    exact .ite (fun _ => .fail) fun open_ => absurd (by rw [hl]; rfl) open_
  | loopIndex loop param =>
    refine some_ (.outside fun hl => .resolve fun loop' _ => .read ?_)
    rw [hl]
    exact .fail
  | structType | remap | custom => exact .fail
  | var | assign | loop | call => cases hp m _ hn

end Reading

end ShaderGraph
