import ShaderGraph.Proofs.Spelled
import ShaderGraph.Proofs.SuppliedNodes

/-!
# Code that spells types

Generation spells only types whose structs its stage lists: every step that declares something of a
type, or makes a value of it, marks the type first. `CodeSupply.types` takes the types that code
spells for its items; `types_sustained` says what single steps keep up, and so all that generation
makes is provided for.
-/

namespace ShaderGraph

open Build BuildState

/-! ### The types of code -/

/-- Code consists of the types that it spells, and a stage provides for those whose structs it
lists. -/
def CodeSupply.types (p : Plan) : CodeSupply ValueType where
  law := Law.spelling p
  has e s t := t.HeldIn (s.stages.get e).structs
  keep h ht := ht.mono (h.structs _)
  items := Expr.types
  spelled t := [t]
  placed _ _ r := r.1.types

namespace Build

variable {p : Plan} {env : Env} {s : BuildState} {given : List ValueType} {id : NodeId}
  {g : Generator}

theorem itemsIn_types (es : List Expr) : (CodeSupply.types p).itemsIn es = Expr.typesIn es := by
  unfold CodeSupply.itemsIn
  induction es with
  | nil => rfl
  | cons e rest ih => rw [List.flatMap_cons, ih]; rfl

theorem optionItems_types (e : Option Expr) :
    (CodeSupply.types p).optionItems e = Expr.optionTypes e := by
  cases e <;> rfl

theorem ownItems_types (st : Statement) : (CodeSupply.types p).ownItems st = st.ownTypes := by
  cases st with
  | declare _ _ init => exact congrArg _ (optionItems_types init)
  | call _ args => exact itemsIn_types args
  | _ => rfl

theorem statementItems_types (ss : List Statement) :
    (CodeSupply.types p).statementItems ss = Statement.typesIn ss :=
  congrArg (Statement.collectIn · ss) (funext ownItems_types)

theorem stageItems_types (b : StageBuild) : (CodeSupply.types p).stageItems b = b.types := by
  unfold CodeSupply.stageItems StageBuild.types
  rw [statementItems_types, optionItems_types, funext ownItems_types]

/-- An expression spells what its parts spell, and a constructor its own type. -/
theorem types_subset (e : Expr) : e.types ⊆ e.ownType?.toList ++ Expr.typesIn e.parts := by
  cases e with
  | sample texture sampler uv level =>
    cases level <;> simp [Expr.types, Expr.parts, Expr.ownType?, Expr.typesIn, Expr.optionTypes]
  | _ => simp [Expr.types, Expr.parts, Expr.ownType?, Expr.typesIn]

/-- What an expression spells is provided for where its type and the types of its parts are. -/
theorem types_follow {e : Expr} (ht : ∀ t ∈ e.ownType?, t ∈ given)
    (hp : ∀ x ∈ e.parts, x.types ⊆ given) : (CodeSupply.types p).Follows given e.types := by
  refine .of_subset fun t hmem => ?_
  rcases List.mem_append.1 (types_subset e hmem) with own | part
  · exact ht t (Option.mem_toList.1 own)
  · rw [← itemsIn_types (p := p)] at part
    obtain ⟨x, hx, hmem⟩ := List.mem_flatMap.1 part
    exact hp x hx hmem

/-! ### Single steps -/

theorem useType_types (t : ValueType) :
    (CodeSupply.types p).Makes env given (useType t) fun _ => [t] :=
  fun s hs _ => (useType_spelling t s hs).imp fun _ _ hr =>
    ⟨hr.1, List.forall_mem_singleton.2 hr.2⟩

/-- A property is declared at the top of the entry point. -/
theorem property_spelling (name : String) (type : ValueType) :
    (Law.spelling p).Keeps env (buildProperty name type) := by
  refine .bind .here fun b => ?_
  split
  · exact .when (fun _ => .fail rfl) fun _ => .pure _
  have declare : ∀ emitted, (CodeSupply.types p).Makes env [type] (modifyHere fun b => { b with
      locals := b.locals ++ [.declare emitted type none .mutable none]
      properties := b.properties.put name (type, emitted) }) fun _ => [] := by
    refine fun emitted s _ hp => ⟨.modify rfl (fun types t ht => ?_) fun _ hn => .inl hn, nofun⟩
    have split : Statement.typesIn ((s.stages.get env.stage).locals ++
        [.declare emitted type none .mutable none]) =
          Statement.typesIn (s.stages.get env.stage).locals ++ [type] :=
      Statement.collectIn_append _ _
    unfold StageBuild.types at ht
    rw [split, List.append_assoc, List.mem_append, List.mem_append, List.mem_singleton] at ht
    rcases ht with ht | rfl | ht
    · exact types t (List.mem_append_left _ ht)
    · exact hp t (.head _)
    · exact types t (List.mem_append_right _ ht)
  have made : (CodeSupply.types p).Makes env [] (do
      useType type
      let emitted ← claimLocal name
      modifyHere fun b => { b with
        locals := b.locals ++ [.declare emitted type none .mutable none]
        properties := b.properties.put name (type, emitted) }
      return localName emitted) fun _ => [] :=
    .bind (useType_types type) fun _ => .after (claimLocal_spelling name) fun emitted =>
      .bind (declare emitted) fun _ => .done .nil
  exact made.keeps fun _ => trivial

theorem spelling_plain : (Law.spelling p).Plain where
  registerUniform := registerUniform_spelling
  useUniform := useUniform_spelling
  registerTexture := registerTexture_spelling
  useTexture := useTexture_spelling
  registerStorage name element count access hs :=
    (registerStorage_spelling name element count access _ hs).and (registerStorage_entry _ _ _ _)
  useStorage _ _ hs hb := (useStorage_spelling hs hb).imp fun _ _ hr => hr.1
  registerAttribute name type := (registerAttribute_spelling name type).keeps
  useAttribute name type _ := useAttribute_spelling name type
  useBuiltin := useBuiltin_spelling
  property := property_spelling
  useType t := (useType_spelling t).keeps

theorem types_composed : (CodeSupply.types p).Composed where
  toPlain := spelling_plain
  ends _ := trivial
  parts e _ t ht := by
    have own : e.ownType?.toList.flatMap (CodeSupply.types p).spelled = e.ownType?.toList :=
      List.flatMap_singleton' _
    rw [itemsIn_types, own]
    exact types_subset e ht
  plain ht x hx := List.mem_singleton.1 hx ▸ ValueType.heldIn_of_none ht
  spells := useType_types
  typeOf := typeOf_spelling
  items_placed _ := List.Subset.refl _
  collected hs e := by
    rw [stageItems_types]
    exact hs.2.types e
  modify same hx := by
    refine .modify (same _).1 (fun types t ht => ?_) fun name hn => .inl ((same _).2 ▸ hn)
    rw [stageItems_types, stageItems_types] at hx
    exact (hx t ht).elim (types t) id

section

variable (hg : (CodeSupply.types p).Serves g)

include hg

/-! ### Values that are put together and taken apart -/

theorem join_types (id : NodeId) (parts : List NodeId) :
    (CodeSupply.types p).Makes env given (buildJoin g id parts) Expr.types := by
  refine .after (typeOf_spelling id) fun type => .bind (.mapM fun part _ =>
    .after (typeOf_spelling part) fun t => types_composed.value hg part _) fun es => ?_
  refine .bind (useType_types type) fun _ => .done (types_follow ?_ fun x hx t ht => ?_)
  · rintro _ ⟨⟩
    exact .head _
  · exact List.mem_append_right _ (List.mem_append_left _ (List.mem_flatMap.2 ⟨x, hx, ht⟩))

theorem struct_types (id : NodeId) (values : List NodeId) :
    (CodeSupply.types p).Makes env given (buildStruct g id values) Expr.types := by
  refine .after (typeOf_spelling id) fun type => .structMembers fun members => .check ?_
  refine .bind (types_composed.values hg _) fun es => .bind (useType_types type) fun _ => .done ?_
  refine types_follow ?_ fun x hx t ht => ?_
  · rintro _ ⟨⟩
    exact .head _
  · exact List.mem_append_right _ (List.mem_append_left _ (List.mem_flatMap.2 ⟨x, hx, ht⟩))

theorem member_types (base : NodeId) (name : String) :
    (CodeSupply.types p).Makes env given (buildMember g base name)
      (CodeSupply.types p).optionItems := by
  refine .after (typeOf_spelling base) fun type => .after (.discard (.memberType type name)) fun _ => ?_
  refine .bind (hg.emitted base) fun e => .done ?_
  cases e with
  | none => exact .nil
  | some e => exact .of_subset (List.subset_append_left _ _)

theorem element_types (base : Option Expr) (source i : NodeId) :
    (CodeSupply.types p).Makes env ((CodeSupply.types p).optionItems base ++ given)
      (buildElement g base source i) (CodeSupply.types p).optionItems := by
  refine .after (typeOf_spelling source) fun type => .after (typeOf_spelling i) fun index => ?_
  refine .after (.discard (.elementType type index)) fun _ => .after (.checkIndex type i) fun _ => ?_
  refine .bind (types_composed.value hg i index) fun i => .done ?_
  cases base with
  | none => exact .nil
  | some e =>
    refine .append (.of_subset fun t ht => ?_) (.of_subset (List.subset_append_left _ _))
    exact List.mem_append_right _ (List.mem_append_left _ ht)

theorem index_types (base i : NodeId) :
    (CodeSupply.types p).Makes env given (buildIndex g base i) (CodeSupply.types p).optionItems :=
  .bind (hg.emitted base) fun e => element_types hg e base i

/-! ### Varyings -/

/-- The vertex program assigns the value of its source to a varying. -/
theorem writeVarying_types {v : VaryingEntry} (hv : v.type.heldStruct? = none) :
    (Law.spelling p).Keeps env (writeVarying g id v) := by
  have assign : ∀ env, (CodeSupply.types p).Makes env [] (do
      let e ← g.value v.source v.type
      addStatement (.assign (.reference (.varying .vertex v.name)) e)
      modifyHere fun b => { b with varyings := appendNew b.varyings id }) fun _ => [] := by
    refine fun env => .bind (types_composed.value hg v.source v.type) fun e =>
      .bind (types_composed.add (.append ?_ .nil)) fun _ =>
        .keep (spelling_modifyHere fun _ => ⟨rfl, rfl, rfl⟩)
    exact .append (types_composed.atom rfl rfl rfl) (.of_subset (List.subset_append_left _ _))
  refine .ite (fun _ => .pure _) fun _ => .bind ?_ fun _ => locateVarying_spelling id hv
  refine ((assign (within env .vertex)).keeps fun _ => trivial).inStage (fun s hs => ?_)
    (fun _ _ hr => hr) fun _ he => he
  unfold within
  split <;> exact hs

theorem varying_types (source : NodeId) (name : Option String) (interpolation : Interpolation)
    (sampling : Option Sampling) :
    (CodeSupply.types p).Makes env given (buildVarying g id source name interpolation sampling)
      Expr.types := by
  refine .look .stage fun t => .check ?_
  refine .taking (registerVarying_spelling id source name interpolation sampling) fun v hv => ?_
  refine .after (writeVarying_types hg hv) fun _ => .ite (fun _ => ?_) fun _ => .done .nil
  exact .after (spelling_modifyHere fun _ => ⟨rfl, rfl, rfl⟩) fun _ => .done .nil

/-! ### Places -/

theorem placeBase_types (base : NodeId) :
    (CodeSupply.types p).Makes env given (placeBase g base) Expr.types := by
  refine .resolve fun m _ => .node fun n _ => ?_
  split
  · exact types_composed.storage_made fun b r => .check (.done (.of_subset nofun))
  · exact .bind (types_composed.placeOf hg base) fun r =>
      .done (.of_subset (List.subset_append_left _ _))

theorem placeOf_types (id : NodeId) (type : ValueType) (n : Node) :
    (CodeSupply.types p).Makes env given (placeOf g id type n) Expr.types := by
  have own : (CodeSupply.types p).Makes env given (ownPlace g id type) Expr.types := by
    refine .bind (hg.emitted id) fun e => ?_
    cases e with
    | some e => exact .done (.of_subset (List.subset_append_left _ _))
    | none => exact .fail
  unfold placeOf
  split
  · exact .fail
  · exact own
  · exact own
  · exact .bind (types_composed.placeOf hg _) fun r =>
      .done (.of_subset (List.subset_append_left _ _))
  · refine .bind (placeBase_types hg _) fun base =>
      .bind (element_types hg (some base) _ _) fun e => ?_
    cases e with
    | some e => exact .done (.of_subset (List.subset_append_left _ _))
    | none => exact .fail
  · next base components =>
    have rest : (CodeSupply.types p).Makes env given (swizzlePlace g base components) Expr.types :=
      .bind (types_composed.placeOf hg base) fun r => .rule fun cs _ =>
        .done (.of_subset (List.subset_append_left _ _))
    refine .look .dialect fun d => .ite (fun _ => .look .dialect fun d _ _ _ => trivial) fun _ => rest
  · exact .fail

theorem buildPlace_types (id : NodeId) :
    (CodeSupply.types p).Makes env given (buildPlace g id) fun r => r.1.types := by
  refine .resolve fun m _ => .located (.node fun n _ => .after (typeOf_spelling m) fun type => ?_)
  exact .bind (placeOf_types hg m type n) fun e => .done (.of_subset (List.subset_append_left _ _))

end

/-! ### Generation -/

/-- What is around a node does not matter, apart from the plan. -/
theorem spelling_around {env' : Env} {s' : BuildState} (hs : (Law.spelling p).inv env s)
    (hp : env'.plan = env.plan) (hr : s.Extends p s') :
    (Law.spelling p).rel [] s s' ∧ (Law.spelling p).inv env' s' :=
  ⟨hr, hp.trans hs.1, hr.spelled hs.2⟩

theorem types_sustained : (CodeSupply.types p).Sustained where
  toComposed := types_composed
  registerFunction := registerFunction_spelling
  useFunction := useFunction_spelling
  claimLocal := claimLocal_spelling
  releaseLocal := releaseLocal_spelling
  claimTemp := claimTemp_spelling
  bindName := bindName_spelling
  visited _ _ _ hv := absurd rfl hv
  visit _ _ _ := extends_of_same rfl rfl rfl rfl rfl
  inside hs _ := spelling_around hs rfl (extends_of_same rfl rfl rfl rfl rfl)
  lent hs _ := hs
  scope _ _ hs := spelling_around hs rfl (extends_of_same rfl rfl rfl rfl rfl)
  varying hg _ := varying_types hg _ _ _ _
  join hg _ _ := join_types hg _ _
  struct hg _ _ := struct_types hg _ _
  member hg _ := member_types hg _ _
  index hg _ := index_types hg _ _
  place hg := buildPlace_types hg _

end Build

end ShaderGraph
