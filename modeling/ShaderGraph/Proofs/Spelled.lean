import ShaderGraph.Proofs.Collected
import ShaderGraph.Proofs.Conversions
import ShaderGraph.Proofs.Inputs

/-!
# Types that are marked and spelled

A stage must declare the structs of all types that it spells, each behind those that its members
hold. `Plan.Listed` says that a list of structs is in such an order. Marking a type lists the structs
that it needs and changes nothing else (`markType_marks`).

It ends for the types that are `Plan.Grounded`, that is, need no struct which contains itself
(`markType_ends`). For any other type it goes down without end, unless it comes to a struct without a
layout (`markTypeIn_exhausted`).

`BuildState.Spelled` says that each stage lists the structs of all types that it has spelled so far:
in its statements, in its output, and in the storage buffers that it declares. The uniforms,
attributes and varyings of a build are of types that hold no structs. `Law.spelling` says that a step
keeps to this; all steps that fill tables do.
-/

namespace ShaderGraph

/-! ## Structs that are needed -/

/-- The structs that values of a type hold are among some. -/
def ValueType.HeldIn (t : ValueType) (structs : List String) : Prop :=
  ∀ name, t.heldStruct? = some name → name ∈ structs

theorem ValueType.HeldIn.mono {t : ValueType} {l l' : List String} (h : t.HeldIn l) (hl : l ⊆ l') :
    t.HeldIn l' := fun name hn => hl (h name hn)

theorem ValueType.heldIn_of_none {t : ValueType} {l : List String} (h : t.heldStruct? = none) :
    t.HeldIn l := fun name hn => by
  rw [h] at hn
  cases hn

namespace Plan

variable {p : Plan} {t : ValueType} {name inner : String} {l l' : List String}

/-- Each struct has a layout and stands once, behind those that its members hold. -/
inductive Listed (p : Plan) : List String → Prop
  | nil : p.Listed []
  | snoc {l : List String} {name : String} {members : List Member} (before : p.Listed l)
      (fresh : name ∉ l) (layout : p.structs.get? name = some members)
      (held : ∀ m ∈ members, m.type.HeldIn l) : p.Listed (l ++ [name])

namespace Listed

/-- A struct needs those that its members hold. -/
theorem needsFirst (h : p.Listed l) : NeedsFirst p.Holds l := by
  induction h with
  | nil => exact .nil
  | snoc before fresh layout held ih =>
    refine .snoc ih fresh ?_
    rintro inner ⟨members, layout', m, hm, hi⟩
    cases layout.symm.trans layout'
    exact held m hm inner hi

theorem layout (h : p.Listed l) (hn : name ∈ l) : ∃ members, p.structs.get? name = some members := by
  induction h with
  | nil => cases hn
  | snoc before fresh layout held ih =>
    rcases List.mem_append.1 hn with hn | hn
    · exact ih hn
    · exact ⟨_, List.mem_singleton.1 hn ▸ layout⟩

/-- Where a struct stands, those that its members hold stand before. -/
theorem at_split (h : p.Listed (l ++ name :: l')) : name ∉ l ∧
    ∃ members, p.structs.get? name = some members ∧ ∀ m ∈ members, m.type.HeldIn l := by
  obtain ⟨fresh, first⟩ := h.needsFirst.at_split
  obtain ⟨members, layout⟩ := h.layout (List.mem_append_right l (.head l'))
  exact ⟨fresh, members, layout, fun m hm inner hi => first inner ⟨members, layout, m, hm, hi⟩⟩

theorem nodup (h : p.Listed l) : l.Nodup := h.needsFirst.nodup

theorem needs (h : p.Listed l) (ht : t.HeldIn l) (hn : p.NeedsStruct t name) : name ∈ l :=
  h.needsFirst.mem_of_reach (ht _ hn.choose_spec.1) hn.choose_spec.2

theorem grounded (h : p.Listed l) (ht : t.HeldIn l) : p.Grounded t :=
  fun _ hn => h.needsFirst.irrefl (h.needs ht hn)

/-- A struct is listed behind those that its members hold, unless it is listed already. -/
theorem appendNew {members : List Member} (h : p.Listed l)
    (layout : p.structs.get? name = some members) (held : ∀ m ∈ members, m.type.HeldIn l) :
    p.Listed (appendNew l name) := by
  unfold ShaderGraph.appendNew
  split
  · exact h
  · next hn => exact .snoc h hn layout held

end Listed

end Plan

/-! ### Marking types -/

namespace BuildState

variable {p : Plan} {e : Stage} {s s' s'' : BuildState}

/-- The stage `e` lists more structs, in order; nothing else changes. -/
structure Marks (p : Plan) (e : Stage) (s s' : BuildState) : Prop where
  only : ∃ structs, s' =
    { s with stages := s.stages.modify e fun b => { b with structs := structs } }
  grows : (s.stages.get e).structs ⊆ (s'.stages.get e).structs
  listed : p.Listed (s.stages.get e).structs → p.Listed (s'.stages.get e).structs

namespace Marks

theorem refl (s : BuildState) : s.Marks p e s where
  only := ⟨(s.stages.get e).structs, by cases e <;> rfl⟩
  grows := List.Subset.refl _
  listed := id

theorem trans (h : s.Marks p e s') (h' : s'.Marks p e s'') : s.Marks p e s'' where
  only := by
    obtain ⟨_, rfl⟩ := h.only
    obtain ⟨structs, rfl⟩ := h'.only
    exact ⟨structs, by cases e <;> rfl⟩
  grows := List.Subset.trans h.grows h'.grows
  listed := h'.listed ∘ h.listed

/-- A struct is listed whose members hold only structs that are listed. -/
theorem add {name : String} {members : List Member} (layout : p.structs.get? name = some members)
    (held : ∀ m ∈ members, m.type.HeldIn (s.stages.get e).structs) :
    s.Marks p e { s with
      stages := s.stages.modify e fun b => { b with structs := appendNew b.structs name } } where
  only := ⟨appendNew (s.stages.get e).structs name, by cases e <;> rfl⟩
  grows name hn := by
    rw [PerStage.get_modify, if_pos rfl]
    exact mem_appendNew.2 (.inl hn)
  listed h := by
    rw [PerStage.get_modify, if_pos rfl]
    exact h.appendNew layout held

end Marks

end BuildState

/-- What marking types in the stage `e` keeps to. -/
def Law.marking (p : Plan) (e : Stage) : Law where
  inv env _ := env.plan = p ∧ env.stage = e
  rel _ := BuildState.Marks p e
  ends _ := True
  refl := .refl
  trans h h' := h.trans h'
  mono hi _ := hi
  loops _ hi := hi
  ordinary _ := trivial
  located _ := trivial

namespace Build

variable {p : Plan} {e : Stage} {env : Env} {s : BuildState} {fuel : Nat} {t : ValueType}

/-- Marking a type lists the structs that it holds behind those that they need. -/
theorem markTypeIn_marks : (Law.marking p e).Secures env (markTypeIn fuel t) fun s =>
    t.HeldIn (s.stages.get e).structs := by
  induction fuel generalizing t with
  | zero => exact fun _ _ => trivial
  | succ fuel ih =>
    rintro s ⟨rfl, rfl⟩
    cases t with
    | struct name =>
      rw [markTypeIn, meets_bind, meets_here, meets_ite]
      refine ⟨fun hc => ⟨.refl s, ?_⟩, fun _ => ?_⟩
      · rintro _ ⟨⟩
        exact List.contains_iff_mem.1 hc
      rw [meets_bind, meets_structMembers]
      cases layout : env.plan.structs.get? name with
      | none => trivial
      | some members =>
        dsimp only
        rw [forIn_eq_forM, meets_bind]
        have all := Law.Secures.forM (fun _ _ _ grows held => held.mono grows.grows)
          (fun (m : Member) (_ : m ∈ members) => ih (t := m.type)) s ⟨rfl, rfl⟩
        refine all.imp ?_
        rintro _ s' ⟨marks, held⟩
        rw [meets_modifyHere]
        refine ⟨marks.trans (.add layout held), ?_⟩
        rintro _ ⟨⟩
        rw [PerStage.get_modify, if_pos rfl]
        exact mem_appendNew.2 (.inr rfl)
    | array element count => exact ih (t := element) s ⟨rfl, rfl⟩
    | _ => exact ⟨.refl s, ValueType.heldIn_of_none rfl⟩

theorem markType_marks : (Law.marking p e).Secures env (markType t) fun s =>
    t.HeldIn (s.stages.get e).structs := fun s hs => markTypeIn_marks s hs

/-- Marking a type that needs no struct that contains itself ends. -/
theorem markType_ends (h : env.plan.Grounded t) : markType t env s ≠ .error .exhausted := by
  have ends : (Law.tables False).Keeps env (markType t) := markType_tables fun _ => h
  exact fun he => (ends s trivial).failure he

/-- Marking a type is refused only if it needs a struct without a layout. -/
theorem markTypeIn_unrefused (h : ∀ name, env.plan.NeedsStruct t name →
    ∃ members, env.plan.structs.get? name = some members) :
    Meets (markTypeIn fuel t) env s (fun f => f = .exhausted) fun _ _ => True := by
  induction fuel generalizing t s with
  | zero => rfl
  | succ fuel ih =>
    cases t with
    | struct name =>
      obtain ⟨members, layout⟩ := h name ⟨name, rfl, .refl⟩
      rw [markTypeIn, meets_bind, meets_here, meets_ite]
      refine ⟨fun _ => trivial, fun _ => ?_⟩
      rw [meets_bind, meets_structMembers, layout]
      dsimp only
      rw [forIn_eq_forM, meets_bind]
      refine (meets_forM (fun _ _ => True) trivial fun _ m _ hm _ => ?_).imp fun _ _ _ => trivial
      exact ih fun inner hi => h inner (.member rfl layout hm hi)
    | array element count => exact ih h
    | _ => trivial

/-- Marking a type that needs a struct which contains itself goes down without end, when all structs
that it needs have layouts. -/
theorem markTypeIn_exhausted (hl : env.plan.Listed (s.stages.get env.stage).structs)
    (hd : ∀ name, env.plan.NeedsStruct t name →
      ∃ members, env.plan.structs.get? name = some members) (hg : ¬env.plan.Grounded t) :
    markTypeIn fuel t env s = .error .exhausted := by
  cases h : markTypeIn fuel t env s with
  | ok r =>
    have marked := (markTypeIn_marks (t := t) s ⟨rfl, rfl⟩).post h
    exact absurd ((marked.1.listed hl).grounded marked.2) hg
  | error f => rw [(markTypeIn_unrefused hd).failure h]

end Build

/-! ## Types that are spelled -/

/-! ### Types in code -/

namespace Expr

mutual

/-- The types that an expression spells. -/
def types : Expr → List ValueType
  | literal .. | reference _ => []
  | construct type args => type :: typesIn args
  | math _ args | call _ args => typesIn args
  | operator _ left right | remainder left right | index left right => left.types ++ right.types
  | unary _ e | swizzle e _ | member e _ | address e => e.types
  | select condition whenTrue whenFalse =>
    condition.types ++ (whenTrue.types ++ whenFalse.types)
  | sample _ _ uv level => uv.types ++ optionTypes level

/-- The types that some expressions spell. -/
def typesIn : List Expr → List ValueType
  | [] => []
  | e :: rest => e.types ++ typesIn rest

/-- The types that an expression spells, if there is one. -/
def optionTypes : Option Expr → List ValueType
  | none => []
  | some e => e.types

end

end Expr

namespace Statement

/-- The types that a statement spells, apart from its blocks. -/
def ownTypes : Statement → List ValueType
  | declare _ type init _ _ => type :: Expr.optionTypes init
  | assign place value => place.types ++ value.types
  | update place _ value => place.types ++ value.types
  | call _ args => Expr.typesIn args
  | jump _ => []
  | branch condition _ _ => condition.types
  | loop _ type start _ stop _ _ => type :: (start.types ++ stop.types)

/-- The types that some statements spell, in their blocks as well. -/
def typesIn (ss : List Statement) : List ValueType := collectIn ownTypes ss

end Statement

/-- The types that the entry point of a stage spells. -/
def StageBuild.types (b : StageBuild) : List ValueType :=
  Statement.typesIn b.locals ++ (b.collect Statement.ownTypes ++ Expr.optionTypes b.output)

/-! ### States -/

namespace BuildState

variable {p : Plan} {s s' s'' : BuildState} {e : Stage} {ts ts' : List ValueType}

/-- A stage lists the structs that some types hold. -/
def Provides (s : BuildState) (e : Stage) (ts : List ValueType) : Prop :=
  ∀ t ∈ ts, t.HeldIn (s.stages.get e).structs

/-- The stages list the structs of all types that they spell. -/
structure Spelled (p : Plan) (s : BuildState) : Prop where
  listed : ∀ e, p.Listed (s.stages.get e).structs
  types : ∀ e, s.Provides e (s.stages.get e).types
  storage : ∀ e, ∀ name ∈ (s.stages.get e).storage, ∃ b, s.storage.get? name = some b ∧
    b.element.HeldIn (s.stages.get e).structs
  groups : ∀ group g, s.groups.get? group = some g → ∀ m ∈ g.members, m.2.heldStruct? = none
  attributes : ∀ name a, s.attributes.get? name = some a → a.type.heldStruct? = none
  varyings : ∀ id v, s.varyings.get? id = some v → v.type.heldStruct? = none

/-- What is spelled is provided for when it was before, and no struct is dropped. -/
structure Extends (p : Plan) (s s' : BuildState) : Prop where
  spelled : s.Spelled p → s'.Spelled p
  structs : ∀ e, (s.stages.get e).structs ⊆ (s'.stages.get e).structs

namespace Extends

theorem refl (s : BuildState) : s.Extends p s := ⟨id, fun _ => List.Subset.refl _⟩

theorem trans (h : s.Extends p s') (h' : s'.Extends p s'') : s.Extends p s'' :=
  ⟨h'.spelled ∘ h.spelled, fun e => List.Subset.trans (h.structs e) (h'.structs e)⟩

/-- What was collected for one stage changes. -/
theorem modify {f : StageBuild → StageBuild}
    (hl : (f (s.stages.get e)).structs = (s.stages.get e).structs)
    (ht : s.Provides e (s.stages.get e).types → s.Provides e (f (s.stages.get e)).types)
    (hs : ∀ name ∈ (f (s.stages.get e)).storage, name ∈ (s.stages.get e).storage ∨
      ∃ b, s.storage.get? name = some b ∧ b.element.HeldIn (s.stages.get e).structs) :
    s.Extends p { s with stages := s.stages.modify e f } := by
  have structs : ∀ u, ((s.stages.modify e f).get u).structs = (s.stages.get u).structs := by
    intro u
    rw [PerStage.get_modify]
    split
    · next hu => exact hu ▸ hl
    · rfl
  refine ⟨fun h => ⟨fun u => structs u ▸ h.listed u, fun u t hmem => ?_, fun u name hn => ?_,
    h.groups, h.attributes, h.varyings⟩, fun u => structs u ▸ List.Subset.refl _⟩
  · rw [structs u]
    rw [PerStage.get_modify] at hmem
    split at hmem
    · next hu =>
      subst hu
      exact ht (h.types u) t hmem
    · exact h.types u t hmem
  · rw [structs u]
    rw [PerStage.get_modify] at hn
    split at hn
    · next hu =>
      subst hu
      exact (hs name hn).elim (h.storage u name) id
    · exact h.storage u name hn

theorem of_marks (h : s.Marks p e s') : s.Extends p s' := by
  obtain ⟨structs, rfl⟩ := h.only
  have grows : ∀ u, (s.stages.get u).structs ⊆
      ((s.stages.modify e fun b => { b with structs := structs }).get u).structs := by
    intro u
    by_cases hu : u = e
    · exact hu ▸ h.grows
    · rw [PerStage.get_modify, if_neg hu]
      exact List.Subset.refl _
  have same : ∀ u, ((s.stages.modify e fun b => { b with structs := structs }).get u).types =
      (s.stages.get u).types := fun u => s.stages.map_get_modify e u fun _ => rfl
  have storage : ∀ u, ((s.stages.modify e fun b => { b with structs := structs }).get u).storage =
      (s.stages.get u).storage := fun u => s.stages.map_get_modify e u fun _ => rfl
  refine ⟨fun hs => ⟨fun u => ?_, fun u t ht => ?_, fun u name hn => ?_, hs.groups, hs.attributes,
    hs.varyings⟩, grows⟩
  · by_cases hu : u = e
    · subst hu
      exact h.listed (hs.listed u)
    · rw [PerStage.get_modify, if_neg hu]
      exact hs.listed u
  · exact (hs.types u t (same u ▸ ht)).mono (grows u)
  · obtain ⟨b, hb, held⟩ := hs.storage u name (storage u ▸ hn)
    exact ⟨b, hb, held.mono (grows u)⟩

end Extends

/-- Nothing is spelled at the start. -/
theorem spelled_start (p : Plan) : (BuildState.start p).Spelled p where
  listed e := by cases e <;> exact .nil
  types e := by cases e <;> exact fun _ ht => nomatch ht
  storage e := by cases e <;> exact fun _ hn => nomatch hn
  groups _ _ h := nomatch h
  attributes _ _ h := nomatch h
  varyings _ _ h := nomatch h

end BuildState

/-- What steps keep to that spell only types whose structs are listed. -/
def Law.spelling (p : Plan) : Law where
  inv env s := env.plan = p ∧ s.Spelled p
  rel _ := BuildState.Extends p
  ends _ := True
  refl := .refl
  trans h h' := h.trans h'
  mono hi hr := ⟨hi.1, hr.spelled hi.2⟩
  loops _ hi := hi
  ordinary _ := trivial
  located _ := trivial

namespace Build

open Law BuildState

variable {p : Plan} {env : Env} {s : BuildState} {α : Type}

/-- A change of what types and structs have nothing to do with. -/
theorem extends_of_same {s' : BuildState} (hs : s'.stages = s.stages) (ht : s'.storage = s.storage)
    (hg : s'.groups = s.groups) (ha : s'.attributes = s.attributes)
    (hv : s'.varyings = s.varyings) : s.Extends p s' := by
  refine ⟨fun h => ⟨?_, fun e => ?_, ?_, hg ▸ h.groups, ha ▸ h.attributes, hv ▸ h.varyings⟩, ?_⟩
  · exact hs ▸ h.listed
  · unfold Provides
    exact hs ▸ h.types e
  · rw [hs, ht]
    exact h.storage
  · exact fun e => hs ▸ List.Subset.refl _

/-- A change of what was collected for one stage that spells nothing. -/
theorem extends_modify {e : Stage} {f : StageBuild → StageBuild}
    (hf : ∀ b, (f b).structs = b.structs ∧ (f b).types = b.types ∧ (f b).storage = b.storage) :
    s.Extends p { s with stages := s.stages.modify e f } := by
  obtain ⟨structs, types, storage⟩ := hf (s.stages.get e)
  exact .modify structs (fun h => types ▸ h) fun _ hn => .inl (storage ▸ hn)

theorem spelling_modifyHere {f : StageBuild → StageBuild}
    (hf : ∀ b, (f b).structs = b.structs ∧ (f b).types = b.types ∧ (f b).storage = b.storage) :
    (Law.spelling p).Keeps env (modifyHere f) := fun _ _ => extends_modify hf

/-! ### Names -/

theorem claimGlobal_spelling (name : String) : (Law.spelling p).Keeps env (claimGlobal name) :=
  fun _ _ => extends_of_same rfl rfl rfl rfl rfl

theorem claimBinding_spelling (n : Nat) : (Law.spelling p).Keeps env (claimBinding n) :=
  fun _ _ => extends_of_same rfl rfl rfl rfl rfl

theorem claimLocal_spelling (name : String) : (Law.spelling p).Keeps env (claimLocal name) :=
  fun _ _ => extends_modify fun _ => ⟨rfl, rfl, rfl⟩

theorem releaseLocal_spelling (name : String) : (Law.spelling p).Keeps env (releaseLocal name) :=
  spelling_modifyHere fun _ => ⟨rfl, rfl, rfl⟩

theorem claimTemp_spelling : (Law.spelling p).Keeps env claimTemp :=
  fun _ _ => extends_modify fun _ => ⟨rfl, rfl, rfl⟩

theorem bindName_spelling (id : NodeId) (name : String) (frame : Option FrameId) :
    (Law.spelling p).Keeps env (bindName id name frame) :=
  .read (.bind .here fun _ _ _ => extends_of_same rfl rfl rfl rfl rfl)

/-! ### Types and functions -/

/-- A stage that marks a type lists the structs that it holds. -/
theorem markType_spelling (t : ValueType) : (Law.spelling p).Secures env (markType t) fun s =>
    t.HeldIn (s.stages.get env.stage).structs := by
  rintro s ⟨rfl, -⟩
  exact (markType_marks s ⟨rfl, rfl⟩).imp fun _ _ h => ⟨.of_marks h.1, h.2⟩

theorem useType_spelling (t : ValueType) : (Law.spelling p).Secures env (useType t) fun s =>
    t.HeldIn (s.stages.get env.stage).structs := by
  intro s hs
  unfold useType
  rw [meets_bind]
  refine (markType_spelling t s hs).imp fun _ s' h => ?_
  rw [meets_bind, meets_dialect]
  split
  · trivial
  · exact h

theorem registerFunction_spelling (f : FunctionId) :
    (Law.spelling p).Keeps env (registerFunction f) :=
  .bind (.read (.pure _)) fun fuel => .registerFunctionIn (L := Law.spelling p) trivial
    claimGlobal_spelling (fun _ _ _ => extends_of_same rfl rfl rfl rfl rfl)
    (fun _ _ _ _ => extends_of_same rfl rfl rfl rfl rfl) fuel [] f

theorem useFunction_spelling (f : FunctionId) : (Law.spelling p).Keeps env (useFunction f) :=
  .bind (.read (.pure _)) fun fuel => .useFunctionIn trivial (fun t => (markType_spelling t).keeps)
    registerFunction_spelling (fun _ => spelling_modifyHere fun _ => ⟨rfl, rfl, rfl⟩) fuel f

/-- The law says nothing about the contexts and the scope around a node. -/
theorem spelling_unscoped : (Law.spelling p).Unscoped where
  ends _ := trivial
  surroundings hi hp _ := ⟨hp.trans hi.1, hi.2⟩
  types _ _ _ := extends_of_same rfl rfl rfl rfl rfl
  functions := registerFunction_spelling
  scopes _ _ _ := extends_of_same rfl rfl rfl rfl rfl

theorem typeOf_spelling (id : NodeId) : (Law.spelling p).Keeps env (typeOf id) :=
  typeOf_indifferent spelling_unscoped.toIndifferent id

/-! ### Uniforms -/

theorem putGroup_spelling (group : String) {g : GroupEntry}
    (hg : ∀ m ∈ g.members, m.2.heldStruct? = none) :
    (Law.spelling p).Keeps env (putGroup group g) := fun _ _ =>
  ⟨fun h => ⟨h.listed, h.types, h.storage, OrderedMap.forall_get?_put hg h.groups, h.attributes,
    h.varyings⟩, fun _ => List.Subset.refl _⟩

theorem groupEntry_spelling (group : String) : (Law.spelling p).Yields env (groupEntry group)
    fun g => ∀ m ∈ g.members, m.2.heldStruct? = none := by
  refine .get fun s hs => ?_
  split
  · next g found => exact .pure (hs.2.groups group g found)
  · refine .after (claimGlobal_spelling _) fun block => .after (claimGlobal_spelling _) fun inst => ?_
    exact .after (putGroup_spelling group fun _ hm => nomatch hm) fun _ =>
      .pure fun _ hm => nomatch hm

theorem uniformEntry_spelling (key : UniformKey) {type : ValueType} (update : Cadence)
    (value : List Float32) (id : NodeId) (ht : type.heldStruct? = none) :
    (Law.spelling p).Keeps env (uniformEntry key type update value id) := by
  refine .get fun s => ?_
  split
  · exact .when (fun _ => .fail rfl) fun _ => .pure _
  · refine .using (groupEntry_spelling _) fun g hg => .bind (claimGlobal_spelling _) fun member => ?_
    refine .bind (putGroup_spelling _ fun m hm => ?_) fun _ =>
      .bind (fun _ _ => extends_of_same rfl rfl rfl rfl rfl) fun _ => .pure _
    rcases List.mem_append.1 hm with hm | hm
    · exact hg m hm
    · exact List.mem_singleton.1 hm ▸ ht

theorem scheduleUniform_spelling (key : UniformKey) (update : Cadence) (id : NodeId) :
    (Law.spelling p).Keeps env (scheduleUniform key update id) := by
  have record : (Law.spelling p).Keeps env (do
      let uid := (← read).plan.graph.uid
      modify fun s => { s with updates := s.updates.put id ⟨uid, id, key.name, update⟩ }) :=
    .read fun _ _ => extends_of_same rfl rfl rfl rfl rfl
  refine .ite (fun _ => .pure _) fun _ => .using (groupEntry_spelling _) fun g hg => ?_
  split
  · exact .when (fun _ => .fail rfl) fun _ => record
  · exact .bind (putGroup_spelling _ hg) fun _ => record

theorem heldStruct?_of_isHostShareable {t : ValueType} (h : t.isHostShareable = true) :
    t.heldStruct? = none := by
  cases t with
  | scalar | vector | matrix => rfl
  | _ => cases h

theorem heldStruct?_of_isInterface {t : ValueType} (h : t.isInterface = true) :
    t.heldStruct? = none := by
  cases t with
  | scalar | vector => rfl
  | _ => cases h

theorem registerUniform_spelling (id : NodeId) (name : String) (type : ValueType)
    (group : Option String) (update : Cadence) (value : List Float32) :
    (Law.spelling p).Keeps env (registerUniform id name type group update value) := by
  unfold registerUniform
  refine .ite (fun _ _ _ => trivial) fun ht => ?_
  have held : type.heldStruct? = none := heldStruct?_of_isHostShareable (by simpa using ht)
  exact .bind (uniformEntry_spelling _ _ _ _ held) fun u =>
    .bind (scheduleUniform_spelling _ _ _) fun _ => .pure _

theorem useUniform_spelling (group : String) (u : UniformEntry) :
    (Law.spelling p).Keeps env (useUniform group u) := by
  have declare : (Law.spelling p).Keeps env (modifyHere fun b =>
      { b with groups := appendNew b.groups group }) :=
    spelling_modifyHere fun _ => ⟨rfl, rfl, rfl⟩
  refine .using (groupEntry_spelling _) fun g hg => ?_
  refine .ite (fun _ => ?_) fun _ => .bind declare fun _ => .pure _
  refine .bind (claimBinding_spelling _) fun binding => .bind (putGroup_spelling _ hg) fun _ => ?_
  exact .bind declare fun _ => .pure _

/-! ### Textures and storage buffers -/

theorem registerTexture_spelling (name : String) :
    (Law.spelling p).Keeps env (registerTexture name) := by
  refine .get fun s => ?_
  split
  · exact .pure _
  · refine .bind (claimGlobal_spelling _) fun _ => .bind (claimGlobal_spelling _) fun _ => ?_
    exact .bind (fun _ _ => extends_of_same rfl rfl rfl rfl rfl) fun _ => .pure _

theorem useTexture_spelling (name : String) : (Law.spelling p).Keeps env (useTexture name) := by
  have declare : (Law.spelling p).Keeps env (modifyHere fun b =>
      { b with textures := appendNew b.textures name }) :=
    spelling_modifyHere fun _ => ⟨rfl, rfl, rfl⟩
  refine .bind (registerTexture_spelling _) fun t => ?_
  refine .ite (fun _ => ?_) fun _ => .bind declare fun _ => .pure _
  refine .bind (claimBinding_spelling _) fun binding => ?_
  exact .bind (fun _ _ => extends_of_same rfl rfl rfl rfl rfl) fun _ => .bind declare fun _ => .pure _

/-- An entry of a storage buffer changes, but not its type. -/
theorem extends_putStorage {name : String} {b : StorageEntry}
    (h : ∀ b', s.storage.get? name = some b' → b'.element = b.element) :
    s.Extends p { s with storage := s.storage.put name b } := by
  refine ⟨fun hs => ⟨hs.listed, hs.types, fun e other hn => ?_, hs.groups, hs.attributes,
    hs.varyings⟩, fun _ => List.Subset.refl _⟩
  obtain ⟨b', hb', held⟩ := hs.storage e other hn
  by_cases ho : other = name
  · subst ho
    exact ⟨b, (OrderedMap.get?_put _ _ _ _).trans (if_pos rfl), h b' hb' ▸ held⟩
  · exact ⟨b', (OrderedMap.get?_put _ _ _ _).trans ((if_neg ho).trans hb'), held⟩

theorem registerStorage_spelling (name : String) (element : ValueType) (count : Option UInt32)
    (access : Access) : (Law.spelling p).Keeps env (registerStorage name element count access) := by
  intro s _
  unfold registerStorage
  rw [meets_bind, meets_get]
  cases found : s.storage.get? name with
  | some b =>
    refine meets_check fun _ => extends_putStorage fun b' hb' => ?_
    cases found.symm.trans hb'
    split <;> rfl
  | none =>
    refine meets_check fun _ => ?_
    let s₁ : BuildState := { s with
      globals := ((s.globals.claim .empty name).2.claim .empty
        (Name.upperCamel (s.globals.claim .empty name).1 ++ "Buffer")).2 }
    have claimed : s.Extends p s₁ := extends_of_same rfl rfl rfl rfl rfl
    refine claimed.trans (extends_putStorage fun b' hb' => ?_)
    cases found.symm.trans hb'

/-- A stage that declares a storage buffer lists the structs of its elements. -/
theorem useStorage_spelling {name : String} {b : StorageEntry} (hs : (Law.spelling p).inv env s)
    (hb : s.storage.get? name = some b) :
    Meets (useStorage name b) env s (fun _ => True) fun e s' => s.Extends p s' ∧ e.types = [] := by
  have declare : ∀ {s b'}, (Law.spelling p).inv env s → s.storage.get? name = some b' →
      b'.element = b.element → Meets (do
        markType b.element
        modifyHere fun h => { h with storage := appendNew h.storage name }
        return Expr.reference (.storage b.name)) env s (fun _ => True) fun e s' =>
          s.Extends p s' ∧ e.types = [] := by
    intro s b' hs hb' he
    obtain ⟨rfl, -⟩ := hs
    rw [meets_bind]
    refine (markType_marks s ⟨rfl, rfl⟩).imp fun _ s₁ ⟨marks, held⟩ => ?_
    rw [meets_bind, meets_modifyHere, meets_pure]
    refine ⟨(Extends.of_marks marks).trans (.modify rfl id fun other hn => ?_), rfl⟩
    rcases mem_appendNew.1 hn with hn | rfl
    · exact .inl hn
    · obtain ⟨_, rfl⟩ := marks.only
      exact .inr ⟨b', hb', he ▸ held⟩
  unfold useStorage
  refine (meets_ite _ _ _).2 ⟨fun _ => ?_, fun _ => declare hs hb rfl⟩
  rw [meets_bind]
  let s₁ : BuildState := { s with
    nextBinding := s.nextBinding + 1
    storage := s.storage.put name { b with binding := some s.nextBinding } }
  have claimed : s.Extends p { s with nextBinding := s.nextBinding + 1 } :=
    extends_of_same rfl rfl rfl rfl rfl
  have entered : s.Extends p s₁ := claimed.trans <| extends_putStorage fun b' hb' => by
    cases hb.symm.trans hb'
    rfl
  have found : s₁.storage.get? name = some { b with binding := some s.nextBinding } :=
    (OrderedMap.get?_put _ _ _ _).trans (if_pos rfl)
  have rest := declare (s := s₁) ⟨hs.1, entered.spelled hs.2⟩ found rfl
  exact rest.imp fun _ _ h => ⟨entered.trans h.1, h.2⟩

/-! ### Attributes, built-in inputs and varyings -/

theorem putAttribute_extends {name : String} {a : AttributeEntry} (h : a.type.heldStruct? = none) :
    s.Extends p { s with attributes := s.attributes.put name a } :=
  ⟨fun hs => ⟨hs.listed, hs.types, hs.storage, hs.groups,
    OrderedMap.forall_get?_put h hs.attributes, hs.varyings⟩, fun _ => List.Subset.refl _⟩

theorem registerAttribute_spelling (name : String) (explicit : Option ValueType) :
    (Law.spelling p).Yields env (registerAttribute name explicit) fun a =>
      a.type.heldStruct? = none := by
  refine .after (.attributeType name explicit) fun type => .check rfl fun ht => ?_
  refine .get fun s hs => ?_
  split
  · next a found => exact .check rfl fun _ => .pure (hs.2.attributes name a found)
  · have held : type.heldStruct? = none := heldStruct?_of_isInterface (by simpa using ht)
    exact .after (claimGlobal_spelling name) fun _ =>
      .after (fun _ _ => putAttribute_extends held) fun _ => .pure held

theorem useAttribute_spelling (name : String) (explicit : Option ValueType) :
    (Law.spelling p).Keeps env (useAttribute name explicit) := by
  refine .using (registerAttribute_spelling name explicit) fun a ha => ?_
  refine .when (fun _ s _ => ?_) fun _ =>
    .bind (spelling_modifyHere fun _ => ⟨rfl, rfl, rfl⟩) fun _ => .pure _
  have located : s.Extends p { s with nextAttribute := s.nextAttribute + 1 } :=
    extends_of_same rfl rfl rfl rfl rfl
  exact located.trans (putAttribute_extends ha)

theorem useBuiltin_spelling (b : Builtin) : (Law.spelling p).Keeps env (useBuiltin b) :=
  .bind .stage fun _ => .when (fun _ => .fail rfl) fun _ =>
    .bind (spelling_modifyHere fun _ => ⟨rfl, rfl, rfl⟩) fun _ => .pure _

theorem putVarying_extends {id : NodeId} {v : VaryingEntry} (h : v.type.heldStruct? = none) :
    s.Extends p { s with varyings := s.varyings.put id v } :=
  ⟨fun hs => ⟨hs.listed, hs.types, hs.storage, hs.groups, hs.attributes,
    OrderedMap.forall_get?_put h hs.varyings⟩, fun _ => List.Subset.refl _⟩

theorem claimVarying_spelling (name : Option String) :
    (Law.spelling p).Keeps env (claimVarying name) := by
  cases name with
  | some name => exact claimGlobal_spelling _
  | none => exact fun _ _ => extends_of_same rfl rfl rfl rfl rfl

theorem registerVarying_spelling (id source : NodeId) (name : Option String)
    (interpolation : Interpolation) (sampling : Option Sampling) :
    (Law.spelling p).Yields env (registerVarying id source name interpolation sampling) fun v =>
      v.type.heldStruct? = none := by
  refine .get fun s hs => ?_
  split
  · next v found => exact .pure (hs.2.varyings id v found)
  · refine .after .stage fun _ => .check rfl fun _ => .after (.read (.pure env)) fun _ => ?_
    refine .check rfl fun _ => .after (typeOf_spelling source) fun type => .check rfl fun ht => ?_
    have held : type.heldStruct? = none := heldStruct?_of_isInterface (by simpa using ht)
    exact .after (claimVarying_spelling name) fun emitted =>
      .after (fun _ _ => putVarying_extends held) fun _ => .pure held

theorem locateVarying_spelling (id : NodeId) {v : VaryingEntry} (hv : v.type.heldStruct? = none) :
    (Law.spelling p).Keeps env (locateVarying id v) := by
  intro s _
  unfold locateVarying
  rw [meets_modify]
  split
  · exact .refl s
  · have located : s.Extends p { s with nextVarying := s.nextVarying + 1 } :=
      extends_of_same rfl rfl rfl rfl rfl
    exact located.trans (putVarying_extends hv)

/-! ### Analysis -/

theorem spelling_enters : (Law.spelling p).Enters where
  uniform := registerUniform_spelling
  texture := registerTexture_spelling
  storage := registerStorage_spelling
  meshAttribute name type := (registerAttribute_spelling name type).keeps

theorem analyze_spelling (id : NodeId) : (Law.spelling p).Keeps env (analyze id) :=
  .read ((spelling_unscoped.roams fun hi hp => ⟨hp.trans hi.1, hi.2⟩).analyzeIn spelling_enters
    (fun _ _ _ => extends_of_same rfl rfl rfl rfl rfl)
    (fun _ id source name interpolation sampling _ =>
      (registerVarying_spelling id source name interpolation sampling).keeps) _ id)

end Build

end ShaderGraph
