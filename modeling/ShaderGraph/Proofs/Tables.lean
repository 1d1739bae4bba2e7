import Mathlib.Logic.Relation
import ShaderGraph.Build.Expression
import ShaderGraph.Proofs.Collections
import ShaderGraph.Proofs.Law

/-!
# Steps that fill tables

Most steps that belong to single nodes only enter something into a table: names, bindings,
declarations of the module. `Law.tables` says what these steps leave alone: the cache, the
contexts, the types that were found, the varyings, the native functions and the blocks of
statements. They refuse nothing as a cycle.

A type is marked as used together with the structs that it needs. The recursion goes down along
`Plan.Holds`: from a struct to those that its members hold. When no struct that the type needs
contains itself (`Plan.Grounded`), the names on a way down are all different, so what the layouts not
yet met can add to the depth (`Plan.layoutDepth`) gets smaller with each struct, and the recursion
stays below its bound.
-/

namespace ShaderGraph

/-- What a state holds besides tables of names, inputs and declarations. -/
structure Core where
  cache : NodeCache
  frames : FrameTable
  types : OrderedMap (NodeId × FrameId) ValueType
  varyings : OrderedMap NodeId VaryingEntry
  functions : OrderedMap FunctionId FunctionEntry
  visits : List Visit
  inner : Stage → List Block
  outer : Stage → Block

/-- The part of a state that is no table of names, inputs or declarations. -/
def BuildState.core (s : BuildState) : Core where
  cache := s.cache
  frames := s.frames
  types := s.types
  varyings := s.varyings
  functions := s.functions
  visits := s.visits
  inner t := (s.stages.get t).inner
  outer t := (s.stages.get t).outer

section Core

variable {s s' : BuildState} (h : s'.core = s.core)

include h

theorem core_cache : s'.cache = s.cache := congrArg Core.cache h

theorem core_frames : s'.frames = s.frames := congrArg Core.frames h

theorem core_varyings : s'.varyings = s.varyings := congrArg Core.varyings h

theorem core_functions : s'.functions = s.functions := congrArg Core.functions h

end Core

/-- A change of what was collected for one stage that leaves its blocks alone. -/
theorem core_modifyStage (s : BuildState) (t : Stage) {f : StageBuild → StageBuild}
    (hi : ∀ b, (f b).inner = b.inner) (ho : ∀ b, (f b).outer = b.outer) :
    { s with stages := s.stages.modify t f }.core = s.core := by
  have inner : ∀ u, ((s.stages.modify t f).get u).inner = (s.stages.get u).inner :=
    fun u => s.stages.map_get_modify t u hi
  have outer : ∀ u, ((s.stages.modify t f).get u).outer = (s.stages.get u).outer :=
    fun u => s.stages.map_get_modify t u ho
  simp only [BuildState.core, inner, outer]

/-- What steps keep to that fill tables only; `deep` says whether the recursion may get too
deep. -/
def Law.tables (deep : Prop) : Law where
  inv _ _ := True
  rel _ s s' := s'.core = s.core
  ends
    | .refused e => e.cause.isCycle = false
    | .exhausted => deep
  refl _ := rfl
  trans h h' := h'.trans h
  mono _ _ := trivial
  loops _ _ := trivial
  ordinary h := h
  located {_ _ f} h := by
    cases f
    · exact h
    · exact h

/-- What fills tables only keeps to any law that does not see the tables. -/
theorem Law.Keeps.ofTables {L : Law} {deep : Prop} {env : Env} {α : Type} {step : Build α}
    (hd : deep → L.ends .exhausted)
    (hc : ∀ s s', L.inv env s → s'.core = s.core → L.rel [] s s')
    (h : ∀ s, L.inv env s → (Law.tables deep).Keeps env step) : L.Keeps env step := by
  intro s hs
  refine (h s hs s trivial).mono ?_ fun _ s' => hc s s' hs
  intro f hf
  cases f with
  | refused e => exact L.ordinary hf
  | exhausted => exact hd hf

/-! ### Native functions -/

/-- The name and the text under which the programs know a function: its own ones in its own dialect,
those of a translation in the other. -/
def FunctionEntry.Written (p : Plan) (native : NativeFunction) (f : Native.Declaration)
    (claimed : String) (includes : List String) (r : String × String) : Prop :=
  native.dialect = p.options.dialect ∧ r = (claimed, f.code claimed) ∨
    native.dialect = .glsl ∧ p.options.dialect = .wgsl ∧
      f.translate p.host.translate claimed includes = .ok r

/-- The name that the programs know a function by is the one it was given or has a `_` more. -/
theorem FunctionEntry.Written.name {p : Plan} {native : NativeFunction} {f : Native.Declaration}
    {claimed : String} {includes : List String} {r : String × String}
    (h : Written p native f claimed includes r) : r.1 = claimed ∨ r.1 = claimed ++ "_" := by
  rcases h with ⟨-, rfl⟩ | ⟨-, -, h⟩
  · exact .inl rfl
  · exact Native.Declaration.translate_name h

/-- A function that was read is entered with what it was read as; `sources` are the texts of the
functions that it includes. -/
structure FunctionEntry.Renders (p : Plan) (native : NativeFunction) (f : Native.Declaration)
    (sources : List String) (e : FunctionEntry) : Prop where
  inputs : e.inputs = f.inputs
  result : e.result = f.result
  includes : e.includes = native.includes
  source : e.source = f.code e.claimed
  written : Written p native f e.claimed sources (e.name, e.code)

theorem FunctionEntry.Renders.name {p : Plan} {native : NativeFunction} {f : Native.Declaration}
    {sources : List String} {e : FunctionEntry} (h : e.Renders p native f sources) :
    e.name = e.claimed ∨ e.name = e.claimed ++ "_" :=
  h.written.name

namespace Build

variable {env : Env} {s : BuildState}

theorem emitFunction_written (native : NativeFunction) (f : Native.Declaration) (claimed : String)
    (includes : List String) :
    Meets (emitFunction native f claimed includes) env s (fun _ => True) fun r s' =>
      FunctionEntry.Written env.plan native f claimed includes r ∧
        s' = { s with
          globals := if r.1 = claimed then s.globals else s.globals.reserve r.1 } := by
  unfold emitFunction
  rw [meets_bind, meets_dialect, meets_ite]
  refine ⟨fun own => ⟨.inl ⟨own, rfl⟩, by rw [if_pos rfl]⟩, fun foreign => ?_⟩
  rw [meets_ite]
  refine ⟨fun glsl => ?_, fun _ => trivial⟩
  have wgsl : env.plan.options.dialect = .wgsl := by
    rw [glsl] at foreign
    cases h : env.plan.options.dialect with
    | glsl => exact absurd h.symm foreign
    | wgsl => rfl
  rw [meets_bind, meets_read, meets_bind, meets_ofExcept]
  split
  · next r hr =>
    have written : FunctionEntry.Written env.plan native f claimed includes r :=
      .inr ⟨glsl, wgsl, hr⟩
    refine (meets_ite _ _ _).2 ⟨fun other => ⟨written, ?_⟩, fun same => ⟨written, ?_⟩⟩
    · rw [if_neg other]
    · rw [if_pos (not_not.1 same)]
  · trivial

/-- What naming a function makes of it, and of the state: a name is taken, and a second one where the
function is renamed. -/
theorem functionEntry_renders (native : NativeFunction) (f : Native.Declaration)
    (includes : List String) :
    Meets (functionEntry native f includes) env s (fun _ => True) fun e s' =>
      e.Renders env.plan native f includes ∧ e.claimed = (s.globals.claim .empty f.name).1 ∧
        s' = { s with
          globals :=
            if e.name = e.claimed then (s.globals.claim .empty f.name).2
            else (s.globals.claim .empty f.name).2.reserve e.name } := by
  unfold functionEntry claimGlobal
  rw [meets_bind, meets_modifyGet, meets_bind]
  refine (emitFunction_written native f _ includes).imp fun r s' hr => ?_
  obtain ⟨written, rfl⟩ := hr
  exact ⟨⟨rfl, rfl, rfl, rfl, written⟩, rfl, rfl⟩

end Build

/-- Naming a function keeps to a law that taking names keeps to. -/
theorem Law.Keeps.functionEntry {L : Law} {env : Env}
    (claim : ∀ name, L.Keeps env (Build.claimGlobal name))
    (reserve : ∀ name, L.Keeps env (Build.reserveGlobal name)) (native : NativeFunction)
    (f : Native.Declaration) (includes : List String) :
    L.Keeps env (Build.functionEntry native f includes) := by
  refine .bind (claim _) fun claimed => .bind ?_ fun _ => .pure _
  refine .bind .dialect fun target => .ite (fun _ => .pure _) fun _ => .ite (fun _ => ?_) fun _ =>
    .fail rfl
  refine .read (.bind (.ofExcept fun _ _ => rfl) fun emitted => ?_)
  exact .when (fun _ => reserve _) fun _ => .pure _

/-! ### Names and inputs -/

namespace Build

variable {deep : Prop} {env : Env}

open Law

/-- A change that the law of tables does not see. -/
theorem tables_modify {f : BuildState → BuildState} (h : ∀ s, (f s).core = s.core) :
    (Law.tables deep).Keeps env (modify f) := fun s _ => h s

theorem tables_modifyGet {α : Type} {f : BuildState → α × BuildState}
    (h : ∀ s, (f s).2.core = s.core) :
    (Law.tables deep).Keeps env (modifyGet f) := fun s _ => h s

theorem tables_modifyHere {f : StageBuild → StageBuild} (hi : ∀ b, (f b).inner = b.inner)
    (ho : ∀ b, (f b).outer = b.outer) : (Law.tables deep).Keeps env (modifyHere f) :=
  fun s _ => core_modifyStage s _ hi ho

/-! ### Names -/

theorem claimGlobal_tables (name : String) :
    (Law.tables deep).Keeps env (claimGlobal name) :=
  tables_modifyGet fun _ => rfl

theorem claimBinding_tables (count : Nat) :
    (Law.tables deep).Keeps env (claimBinding count) :=
  tables_modifyGet fun _ => rfl

theorem claimLocal_tables (name : String) : (Law.tables deep).Keeps env (claimLocal name) := by
  refine .read (tables_modifyGet fun s => ?_)
  exact core_modifyStage s _ (fun _ => rfl) fun _ => rfl

theorem releaseLocal_tables (name : String) :
    (Law.tables deep).Keeps env (releaseLocal name) :=
  tables_modifyHere (fun _ => rfl) fun _ => rfl

theorem claimTemp_tables : (Law.tables deep).Keeps env claimTemp := by
  refine .read (tables_modifyGet fun s => ?_)
  exact core_modifyStage s _ (fun _ => rfl) fun _ => rfl

theorem claimVarying_tables (name : Option String) :
    (Law.tables deep).Keeps env (claimVarying name) := by
  unfold claimVarying
  cases name with
  | some name => exact claimGlobal_tables _
  | none => exact tables_modifyGet fun _ => rfl

/-! ### Uniforms -/

theorem groupEntry_tables (group : String) :
    (Law.tables deep).Keeps env (groupEntry group) := by
  refine .get fun s => ?_
  split
  · exact .pure _
  · refine .bind (claimGlobal_tables _) fun block => ?_
    refine .bind (claimGlobal_tables _) fun inst => ?_
    exact .bind (tables_modify fun _ => rfl)
      fun _ => .pure _

theorem putGroup_tables (group : String) (g : GroupEntry) :
    (Law.tables deep).Keeps env (putGroup group g) :=
  tables_modify fun _ => rfl

theorem uniformEntry_tables (key : UniformKey) (type : ValueType) (update : Cadence)
    (value : List Float32) (id : NodeId) :
    (Law.tables deep).Keeps env (uniformEntry key type update value id) := by
  refine .get fun s => ?_
  split
  · exact .when (fun _ => .fail rfl) fun _ => .pure _
  · refine .bind (groupEntry_tables _) fun g => ?_
    refine .bind (claimGlobal_tables _) fun member => ?_
    refine .bind (putGroup_tables _ _) fun _ => ?_
    exact .bind (tables_modify fun _ => rfl)
      fun _ => .pure _

theorem scheduleUniform_tables (key : UniformKey) (update : Cadence) (id : NodeId) :
    (Law.tables deep).Keeps env (scheduleUniform key update id) := by
  have record : (Law.tables deep).Keeps env (do
      let uid := (← read).plan.graph.uid
      modify fun s => { s with updates := s.updates.put id ⟨uid, id, key.name, update⟩ }) :=
    .read (tables_modify fun _ => rfl)
  refine .ite (fun _ => .pure _) fun _ => ?_
  refine .bind (groupEntry_tables _) fun g => ?_
  split
  · exact .when (fun _ => .fail rfl) fun _ => record
  · exact .bind (putGroup_tables _ _) fun _ => record

theorem registerUniform_tables (id : NodeId) (name : String) (type : ValueType)
    (group : Option String) (update : Cadence) (value : List Float32) :
    (Law.tables deep).Keeps env (registerUniform id name type group update value) := by
  unfold registerUniform
  refine .when (fun _ => .fail rfl) fun _ => ?_
  refine .bind (uniformEntry_tables ⟨name, group.getD update.defaultGroup⟩ _ _ _ _) fun u => ?_
  exact .bind (scheduleUniform_tables _ _ _) fun _ => .pure _

theorem useUniform_tables (group : String) (u : UniformEntry) :
    (Law.tables deep).Keeps env (useUniform group u) := by
  refine .bind (groupEntry_tables _) fun g => ?_
  have declare : (Law.tables deep).Keeps env (modifyHere fun b =>
      { b with groups := appendNew b.groups group }) :=
    tables_modifyHere (fun _ => rfl) fun _ => rfl
  refine .ite (fun _ => ?_) fun _ => .bind declare fun _ => .pure _
  refine .bind (claimBinding_tables _) fun binding => ?_
  exact .bind (putGroup_tables _ _) fun _ => .bind declare fun _ => .pure _

/-! ### Textures, storage buffers and attributes -/

theorem registerTexture_tables (name : String) :
    (Law.tables deep).Keeps env (registerTexture name) := by
  refine .get fun s => ?_
  split
  · exact .pure _
  · refine .bind (claimGlobal_tables _) fun texture => ?_
    refine .bind (claimGlobal_tables _) fun sampler => ?_
    exact .bind (tables_modify fun _ => rfl) fun _ => .pure _

theorem useTexture_tables (name : String) :
    (Law.tables deep).Keeps env (useTexture name) := by
  refine .bind (registerTexture_tables _) fun t => ?_
  have declare : (Law.tables deep).Keeps env (modifyHere fun b =>
      { b with textures := appendNew b.textures name }) :=
    tables_modifyHere (fun _ => rfl) fun _ => rfl
  refine .ite (fun _ => ?_) fun _ => .bind declare fun _ => .pure _
  refine .bind (claimBinding_tables _) fun binding => ?_
  exact .bind (tables_modify fun _ => rfl) fun _ => .bind declare fun _ => .pure _

theorem registerStorage_tables (name : String) (element : ValueType) (count : Option UInt32)
    (access : Access) :
    (Law.tables deep).Keeps env (registerStorage name element count access) := by
  refine .get fun s => ?_
  split
  · refine .when (fun _ => .fail rfl) fun _ => ?_
    exact .bind (tables_modify fun _ => rfl) fun _ => .pure _
  · refine .when (fun _ => .fail rfl) fun _ => ?_
    refine .bind (claimGlobal_tables _) fun emitted => ?_
    refine .bind (claimGlobal_tables _) fun block => ?_
    exact .bind (tables_modify fun _ => rfl) fun _ => .pure _

/-- The entry of a storage buffer is the one of the table. -/
theorem registerStorage_entry {s : BuildState} (name : String) (element : ValueType)
    (count : Option UInt32) (access : Access) :
    Meets (registerStorage name element count access) env s (fun _ => True) fun b s' =>
      s'.storage.get? name = some b := by
  have found : ∀ (m : OrderedMap String StorageEntry) b, (m.put name b).get? name = some b :=
    fun m b => (OrderedMap.get?_put m name name b).trans (if_pos rfl)
  unfold registerStorage
  rw [meets_bind, meets_get]
  split
  · exact meets_check fun _ => found _ _
  · exact meets_check fun _ => found _ _

theorem attributeType_tables (name : String) (explicit : Option ValueType) :
    (Law.tables deep).Keeps env (attributeType name explicit) := by
  refine .read ?_
  split
  · exact .pure _
  · exact .fail rfl

theorem registerAttribute_tables (name : String) (explicit : Option ValueType) :
    (Law.tables deep).Keeps env (registerAttribute name explicit) := by
  refine .bind (attributeType_tables _ _) fun type => ?_
  refine .when (fun _ => .fail rfl) fun _ => .get fun s => ?_
  split
  · exact .when (fun _ => .fail rfl) fun _ => .pure _
  · refine .bind (claimGlobal_tables _) fun emitted => ?_
    exact .bind (tables_modify fun _ => rfl) fun _ => .pure _

theorem useAttribute_tables (name : String) (explicit : Option ValueType) :
    (Law.tables deep).Keeps env (useAttribute name explicit) := by
  refine .bind (registerAttribute_tables _ _) fun a => ?_
  refine .when (fun _ => tables_modify fun _ => rfl) fun _ => ?_
  exact .bind (tables_modifyHere (fun _ => rfl) fun _ => rfl) fun _ => .pure _

theorem useBuiltin_tables (b : Builtin) : (Law.tables deep).Keeps env (useBuiltin b) := by
  refine .bind .stage fun t => .when (fun _ => .fail rfl) fun _ => ?_
  exact .bind (tables_modifyHere (fun _ => rfl) fun _ => rfl) fun _ => .pure _

/-! ### Native functions -/

theorem reserveGlobal_tables (name : String) :
    (Law.tables deep).Keeps env (reserveGlobal name) :=
  tables_modify fun _ => rfl

theorem functionEntry_tables (native : NativeFunction) (f : Native.Declaration)
    (includes : List String) :
    (Law.tables deep).Keeps env (functionEntry native f includes) :=
  .functionEntry claimGlobal_tables reserveGlobal_tables native f includes

end Build

/-! ## Nested structs -/

/-- The struct that values of a type hold: the type itself or the element of an array. -/
def ValueType.heldStruct? : ValueType → Option String
  | .struct name => some name
  | .array element _ => heldStruct? element
  | _ => none

namespace Plan

/-- A member of the struct `outer` holds the struct `inner`. -/
def Holds (p : Plan) (outer inner : String) : Prop :=
  ∃ members, p.structs.get? outer = some members ∧
    ∃ m ∈ members, m.type.heldStruct? = some inner

/-- No struct layout contains itself, directly or through others. -/
def LayoutsFounded (p : Plan) : Prop := ∀ name, ¬Relation.TransGen p.Holds name name

/-- Values of a type hold a struct, directly or inside of other structs. -/
def NeedsStruct (p : Plan) (t : ValueType) (name : String) : Prop :=
  ∃ outer, t.heldStruct? = some outer ∧ Relation.ReflTransGen p.Holds outer name

/-- The type needs no struct that contains itself. -/
def Grounded (p : Plan) (t : ValueType) : Prop :=
  ∀ name, p.NeedsStruct t name → ¬Relation.TransGen p.Holds name name

theorem LayoutsFounded.grounded {p : Plan} (h : p.LayoutsFounded) (t : ValueType) : p.Grounded t :=
  fun name _ => h name

/-- What the members of a struct need is needed by what holds the struct. -/
theorem NeedsStruct.member {p : Plan} {t : ValueType} {name inner : String} {members : List Member}
    {m : Member} (ht : t.heldStruct? = some name) (layout : p.structs.get? name = some members)
    (hm : m ∈ members) (h : p.NeedsStruct m.type inner) : p.NeedsStruct t inner := by
  obtain ⟨outer, held, reach⟩ := h
  exact ⟨name, ht, .head ⟨members, layout, m, hm, held⟩ reach⟩

/-- How much a layout can add to the depth of a type. -/
def layoutWeight (members : List Member) : Nat :=
  1 + (members.map fun m => Build.arrayDepth m.type).sum

/-- How much the layouts outside a list of names can add to the depth of a type. -/
def layoutDepth (p : Plan) (seen : List String) : Nat :=
  (p.structs.entries.map fun e => if e.1 ∈ seen then 0 else layoutWeight e.2).sum

theorem foldl_arrayDepth (n : Nat) (members : List Member) :
    members.foldl (fun n m => n + Build.arrayDepth m.type) n =
      n + (members.map fun m => Build.arrayDepth m.type).sum := by
  induction members generalizing n with
  | nil => rfl
  | cons m rest ih =>
    rw [List.foldl_cons, ih, List.map_cons, List.sum_cons]
    omega

theorem structDepth_eq (p : Plan) : Build.structDepth p = 1 + p.layoutDepth [] := by
  have h : ∀ (es : List (String × List Member)) (n : Nat),
      (es.map Prod.snd).foldl
          (fun n members => members.foldl (fun n m => n + Build.arrayDepth m.type) (n + 1)) n =
        n + (es.map fun e => layoutWeight e.2).sum := by
    intro es
    induction es with
    | nil => intro n; rfl
    | cons e rest ih =>
      intro n
      rw [List.map_cons, List.foldl_cons, ih, foldl_arrayDepth, List.map_cons, List.sum_cons,
        layoutWeight]
      omega
  unfold Build.structDepth OrderedMap.values
  rw [h]
  simp [layoutDepth]

/-- A layout that was met adds nothing any more. -/
theorem layoutDepth_cons {p : Plan} {name : String} {members : List Member} {seen : List String}
    (h : p.structs.get? name = some members) (hs : name ∉ seen) :
    p.layoutDepth (name :: seen) + layoutWeight members ≤ p.layoutDepth seen := by
  have mem : (name, members) ∈ p.structs.entries := OrderedMap.mem_of_find? h
  exact sum_outside_cons Prod.fst (fun e => layoutWeight e.2) mem hs

theorem arrayDepth_lt_layoutWeight {m : Member} {members : List Member} (h : m ∈ members) :
    Build.arrayDepth m.type < layoutWeight members := by
  have mem : Build.arrayDepth m.type ∈ members.map fun m => Build.arrayDepth m.type :=
    List.mem_map_of_mem h
  have := List.single_le_sum (by simp) _ mem
  unfold layoutWeight
  omega

end Plan

namespace Build

open Law

variable {deep : Prop} {env : Env}

/-- Marking a type does not get too deep when it needs no struct that contains itself. `seen` holds
the structs around the type. -/
theorem markTypeIn_tables {fuel : Nat} {t : ValueType} (seen : List String)
    (hg : ¬deep → env.plan.Grounded t)
    (hf : ¬deep → arrayDepth t + env.plan.layoutDepth seen < fuel)
    (hs : ∀ name, t.heldStruct? = some name →
      ∀ n ∈ seen, Relation.TransGen env.plan.Holds n name) :
    (Law.tables deep).Keeps env (markTypeIn fuel t) := by
  induction fuel generalizing t seen with
  | zero =>
    intro s _
    by_cases hd : deep
    · exact hd
    · have := hf hd
      omega
  | succ fuel ih =>
    cases t with
    | struct name =>
      rw [markTypeIn]
      refine .bind .here fun b => .ite (fun _ => .pure _) fun _ => ?_
      refine .structMembers fun members hm => ?_
      refine .bind (.forIn fun m hx => ih (name :: seen) (fun hd inner hi => ?_) ?_ ?_) fun _ => ?_
      · exact hg hd inner (.member rfl hm hx hi)
      -- the layout of `name` was not counted yet, so what is left gets smaller by its weight
      · intro hd
        have hn : name ∉ seen := fun h => hg hd name ⟨name, rfl, .refl⟩ (hs name rfl name h)
        have := hf hd
        have := Plan.layoutDepth_cons hm hn
        have := Plan.arrayDepth_lt_layoutWeight hx
        omega
      · intro inner hi n hn
        have step : env.plan.Holds name inner := ⟨members, hm, m, hx, hi⟩
        rcases List.mem_cons.1 hn with rfl | hn
        · exact .single step
        · exact .tail (hs name rfl n hn) step
      · exact tables_modifyHere (fun _ => rfl) fun _ => rfl
    | array element count =>
      refine ih seen hg (fun hd => ?_) hs
      have := hf hd
      rw [arrayDepth] at this
      omega
    | _ => exact .pure _

theorem markType_tables {t : ValueType} (hg : ¬deep → env.plan.Grounded t) :
    (Law.tables deep).Keeps env (markType t) := by
  refine .read (markTypeIn_tables [] hg (fun _ => ?_) ?_)
  · rw [Plan.structDepth_eq]
    omega
  · intro _ _ n hn
    cases hn

theorem useType_tables (hp : ¬deep → env.plan.LayoutsFounded) (t : ValueType) :
    (Law.tables deep).Keeps env (useType t) := by
  refine .bind (markType_tables fun hd => (hp hd).grounded t) fun _ => .bind .dialect fun d => ?_
  split
  · exact .fail rfl
  · exact .pure _

/-! ### Steps that mark types -/

theorem useStorage_tables (hp : ¬deep → env.plan.LayoutsFounded) (name : String)
    (b : StorageEntry) : (Law.tables deep).Keeps env (useStorage name b) := by
  have declare : (Law.tables deep).Keeps env (do
      markType b.element
      modifyHere fun h => { h with storage := appendNew h.storage name }
      return Expr.reference (.storage b.name)) :=
    .bind (markType_tables fun hd => (hp hd).grounded _) fun _ =>
      .bind (tables_modifyHere (fun _ => rfl) fun _ => rfl) fun _ => .pure _
  refine .ite (fun _ => ?_) fun _ => declare
  refine .bind (claimBinding_tables _) fun binding => ?_
  exact .bind (tables_modify fun _ => rfl) fun _ => declare

theorem buildProperty_tables (hp : ¬deep → env.plan.LayoutsFounded) (name : String)
    (type : ValueType) : (Law.tables deep).Keeps env (buildProperty name type) := by
  refine .bind .here fun b => ?_
  split
  · exact .when (fun _ => .fail rfl) fun _ => .pure _
  · refine .bind (useType_tables hp _) fun _ => .bind (claimLocal_tables _) fun emitted => ?_
    exact .bind (tables_modifyHere (fun _ => rfl) fun _ => rfl) fun _ => .pure _

end Build

end ShaderGraph
