import ShaderGraph.Proofs.ProgramNames
import ShaderGraph.Proofs.Recording

/-!
# Builds and the numbers of their inputs

What a build hands over in terms of the state of its run (`BuildState.Assembles`,
`recorded_of_build`). The numbers of what is bound are counted up, a program declares what it uses
under the number that the build lists, and what is listed is visible to the programs that declare
it (`bindings_agree`). The locations of attributes and varyings are counted up as well, and what the
fragment program reads the vertex program declares in the same way (`interfaces_match`).
-/

namespace ShaderGraph

/-- The stages that are asked for come in generation order. -/
theorem BuildRequest.stages_eq (request : BuildRequest) :
    request.stages = Stage.all.filter fun t => request.stages.contains t := by
  have rooted : request.stages = Stage.all.filter fun t => (request.root? t).isSome := by
    unfold stages roots
    induction Stage.all with
    | nil => rfl
    | cons t rest ih =>
      rw [List.filterMap_cons, List.filter_cons]
      cases request.root? t with
      | none => exact ih
      | some root => exact congrArg (t :: ·) ih
  refine rooted.trans (List.filter_congr fun t ht => ?_)
  rw [Bool.eq_iff_iff, List.contains_iff_mem, rooted, List.mem_filter]
  exact (and_iff_right ht).symm

/-- Numbers that are counted up are as many as there are things that have them. -/
theorem eq_range_length {α : Type} {f : α → Nat} {xs : List α} {n : Nat}
    (h : xs.map f = List.range n) : xs.map f = List.range xs.length := by
  have length := congrArg List.length h
  rw [List.length_map, List.length_range] at length
  rw [h, length]

/-! ### Artifacts -/

namespace BuildState

/-- An artifact that is put together from a state. -/
structure Assembles (s : BuildState) (p : Plan) (active : List Stage) (a : Artifact) : Prop where
  stages : a.programs.map ProgramOf.stage = active
  programs : ∀ prog ∈ a.programs, s.Presents p prog.stage prog
  dialect : a.dialect = p.options.dialect
  bindings : a.bindings = s.resources active
  uniforms : a.uniforms = s.uniformInputs
  attributes : a.attributes = s.attributeInputs
  varyings : a.varyings = s.varyingLinks

theorem assembles_of_artifact {s : BuildState} {p : Plan} {active : List Stage} {a : Artifact}
    (h : s.artifact p active = .ok a) : s.Assembles p active a := by
  have presents := (of_artifact h).1
  obtain ⟨programs, hprograms, h⟩ := bind_ok h
  cases h
  refine ⟨map_of_mapM_ok (fun t prog ht =>
    (presents_of_stageProgram (stageProgram_of_checked ht)).stage) hprograms,
    fun prog hprog => ?_, rfl, rfl, rfl, rfl, rfl⟩
  obtain ⟨t, -, ht⟩ := presents prog hprog
  exact ht.stage ▸ ht

end BuildState

open Build

variable {g : Graph} {request : BuildRequest} {options : BuildOptions} {host : Host} {a : Artifact}

/-- The state that a build hands over: its tables are numbered and grouped, and what it answered
for uniforms are their members. -/
theorem recorded_of_build (h : build g request options host = .ok a) : ∃ p s,
    Plan.make g options (request.roots.map Prod.snd) host = .ok p ∧ run p request.roots = .ok s ∧
      s.Assembles p request.stages a ∧ (BuildState.start p).Records p s := by
  obtain ⟨p, s, hmake, hrun, hartifact⟩ := of_build h
  exact ⟨p, s, hmake, hrun, BuildState.assembles_of_artifact hartifact, run_records hrun⟩

/-! ### Bindings -/

/-- Something that is bound at a number, by its name in programs. -/
inductive Handle where
  | block (name : String)
  | texture (name : String)
  | sampler (name : String)
  | buffer (name : String)
deriving DecidableEq, Repr

/-- The name in programs. -/
def Handle.name : Handle → String
  | .block n | .texture n | .sampler n | .buffer n => n

/-- How something is declared that is bound at a number. -/
structure Binding where
  handle : Handle
  number : Nat
  readOnly : Bool
deriving DecidableEq, Repr

/-- How programs have to declare a resource. -/
def Resource.declared : Resource → Binding
  | .uniformBuffer b => ⟨.block b.block, b.binding, true⟩
  | .texture name binding _ => ⟨.texture name, binding, true⟩
  | .sampler name binding _ => ⟨.sampler name, binding, true⟩
  | .storageBuffer name binding _ _ readOnly _ => ⟨.buffer name, binding, readOnly⟩

theorem Resource.number_declared (r : Resource) : r.declared.number = r.binding := by
  cases r <;> rfl

/-- The stages that a resource is listed for. -/
def Resource.visibility : Resource → List Stage
  | .uniformBuffer b => b.visibility
  | .texture _ _ visibility | .sampler _ _ visibility => visibility
  | .storageBuffer _ _ _ _ _ visibility => visibility

/-- A texture and its sampler. -/
def TextureDecl.bindings (t : TextureDecl) : List Binding :=
  [⟨.texture t.name, t.textureBinding, true⟩, ⟨.sampler t.sampler, t.samplerBinding, true⟩]

/-- What a program declares at numbers. -/
def Program.bindings (prog : Program) : List Binding :=
  prog.uniforms.map (fun u => ⟨.block u.block, u.binding, true⟩) ++
    prog.textures.flatMap TextureDecl.bindings ++
    prog.storage.map fun b => ⟨.buffer b.name, b.binding, b.readOnly⟩

/-- What a program declares at numbers, by name. -/
def Program.handles (prog : Program) : List Handle := prog.bindings.map Binding.handle

namespace StageBuild

/-- Whether a stage declares what is bound for an item. -/
def binds (b : StageBuild) : Item → Bool
  | .group name => b.groups.contains name
  | .texture name => b.textures.contains name
  | .storage name => b.storage.contains name
  | _ => false

end StageBuild

namespace BuildState

variable {s : BuildState} {p : Plan} {active : List Stage} {t : Stage} {prog : Program} {i j : Item}
  {d d' : Binding} {r : Resource}

/-- How programs declare what is bound for an item. -/
inductive Declared (s : BuildState) : Item → Binding → Prop
  | block {name : String} {g : GroupEntry} (h : s.groups.get? name = some g) :
      Declared s (.group name) ⟨.block g.block, g.binding.getD 0, true⟩
  | texture {name : String} {t : TextureEntry} (h : s.textures.get? name = some t) :
      Declared s (.texture name) ⟨.texture t.name, t.binding.getD 0, true⟩
  | sampler {name : String} {t : TextureEntry} (h : s.textures.get? name = some t) :
      Declared s (.texture name) ⟨.sampler t.sampler, (t.binding.map (· + 1)).getD 0, true⟩
  | buffer {name : String} {b : StorageEntry} (h : s.storage.get? name = some b) :
      Declared s (.storage name) ⟨.buffer b.name, b.binding.getD 0, b.access = .read⟩

/-- An item has its number. -/
inductive Bound (s : BuildState) : Item → Prop
  | group {name : String} {g : GroupEntry} (h : s.groups.get? name = some g)
      (hn : g.binding.isSome) : Bound s (.group name)
  | texture {name : String} {t : TextureEntry} (h : s.textures.get? name = some t)
      (hn : t.binding.isSome) : Bound s (.texture name)
  | storage {name : String} {b : StorageEntry} (h : s.storage.get? name = some b)
      (hn : b.binding.isSome) : Bound s (.storage name)

/-- What a stage declares has its number. -/
theorem bound_of_binds (hn : s.inputs.Numbered) (h : (s.stages.get t).binds i = true) :
    s.Bound i := by
  cases i with
  | group name =>
    obtain ⟨g, hg, hb⟩ := hn.groups.numbered t name (List.contains_iff_mem.1 h)
    exact .group hg hb
  | texture name =>
    obtain ⟨e, he, hb⟩ := hn.textures.numbered t name (List.contains_iff_mem.1 h)
    exact .texture he hb
  | storage name =>
    obtain ⟨b, hb, hb'⟩ := hn.storage.numbered t name (List.contains_iff_mem.1 h)
    exact .storage hb hb'
  | _ => cases h

/-- What is bound for an item goes by a name of the item. -/
theorem name_of_declared (h : s.Declared i d) : d.handle.name ∈ s.namesOf i := by
  cases h with
  | block h | texture h | sampler h | buffer h => simp [namesOf, h, Handle.name]

/-- What goes by one name is bound for one item, in one way. -/
theorem eq_of_declared (hs : s.Named p) (hd : s.Declared i d) (hd' : s.Declared j d')
    (h : d.handle = d'.handle) : i = j ∧ d = d' := by
  obtain rfl : i = j := hs.distinct (name_of_declared hd) (h ▸ name_of_declared hd')
  refine ⟨rfl, ?_⟩
  cases hd with
  | block hg | texture hg | sampler hg | buffer hg =>
    cases hd' <;> simp_all

/-- A program declares what is bound for the items that its stage declares. -/
theorem mem_bindings (h : s.Presents p t prog) :
    d ∈ prog.bindings ↔ ∃ i, (s.stages.get t).binds i = true ∧ s.Declared i d := by
  have groups : d ∈ prog.uniforms.map (fun u => ⟨.block u.block, u.binding, true⟩) ↔
      ∃ name, (s.stages.get t).binds (.group name) = true ∧ s.Declared (.group name) d := by
    simp only [h.uniforms, sortByNumber, List.mem_map, mem_sortBy, List.mem_filterMap,
      uniformBlock?, StageBuild.binds, List.contains_iff_mem, Option.map_eq_some_iff]
    constructor
    · rintro ⟨_, ⟨name, hname, g, hg, rfl⟩, rfl⟩
      exact ⟨name, hname, .block hg⟩
    · rintro ⟨name, hname, hd⟩
      cases hd with
      | block hg => exact ⟨_, ⟨name, hname, _, hg, rfl⟩, rfl⟩
  have textures : d ∈ prog.textures.flatMap TextureDecl.bindings ↔
      ∃ name, (s.stages.get t).binds (.texture name) = true ∧ s.Declared (.texture name) d := by
    simp only [h.textures, sortByNumber, List.mem_flatMap, mem_sortBy, List.mem_filterMap,
      textureDecl?, StageBuild.binds, List.contains_iff_mem, Option.map_eq_some_iff,
      TextureDecl.bindings, List.mem_pair]
    constructor
    · rintro ⟨_, ⟨name, hname, e, he, rfl⟩, rfl | rfl⟩
      · exact ⟨name, hname, .texture he⟩
      · exact ⟨name, hname, .sampler he⟩
    · rintro ⟨name, hname, hd⟩
      cases hd with
      | texture he => exact ⟨_, ⟨name, hname, _, he, rfl⟩, .inl rfl⟩
      | sampler he => exact ⟨_, ⟨name, hname, _, he, rfl⟩, .inr rfl⟩
  have storage : d ∈ prog.storage.map (fun b => ⟨.buffer b.name, b.binding, b.readOnly⟩) ↔
      ∃ name, (s.stages.get t).binds (.storage name) = true ∧ s.Declared (.storage name) d := by
    simp only [h.storage, sortByNumber, List.mem_map, mem_sortBy, List.mem_filterMap,
      storageDecl?, StageBuild.binds, List.contains_iff_mem, Option.map_eq_some_iff]
    constructor
    · rintro ⟨_, ⟨name, hname, b, hb, rfl⟩, rfl⟩
      exact ⟨name, hname, .buffer hb⟩
    · rintro ⟨name, hname, hd⟩
      cases hd with
      | buffer hb => exact ⟨_, ⟨name, hname, _, hb, rfl⟩, rfl⟩
  unfold Program.bindings
  rw [List.mem_append, List.mem_append, groups, textures, storage]
  constructor
  · rintro ((⟨name, h⟩ | ⟨name, h⟩) | ⟨name, h⟩)
    all_goals exact ⟨_, h⟩
  · rintro ⟨i, hi, hd⟩
    cases hd with
    | block hg => exact .inl (.inl ⟨_, hi, .block hg⟩)
    | texture he => exact .inl (.inr ⟨_, hi, .texture he⟩)
    | sampler he => exact .inl (.inr ⟨_, hi, .sampler he⟩)
    | buffer hb => exact .inr ⟨_, hi, .buffer hb⟩

theorem mem_resources_iff : r ∈ s.resources active ↔
    (∃ e ∈ s.groups.entries, s.uniformBuffer? active e.1 e.2 = some r) ∨
      (∃ e ∈ s.textures.entries, r ∈ s.textureResources active e.1 e.2) ∨
        ∃ e ∈ s.storage.entries, s.storageResource? active e.1 e.2 = some r := by
  unfold resources sortByNumber
  rw [mem_sortBy, List.mem_append, List.mem_append, List.mem_filterMap, List.mem_flatMap,
    List.mem_filterMap, or_assoc]

/-- What is listed is bound for an item, and visible to the stages that declare the item. -/
theorem mem_resources (hn : s.inputs.Numbered) (h : r ∈ s.resources active) :
    ∃ i, s.Declared i r.declared ∧ r.visibility = s.visibility active fun b => b.binds i := by
  rcases mem_resources_iff.1 h with ⟨⟨name, g⟩, he, hr⟩ | ⟨⟨name, e⟩, he, hr⟩ | ⟨⟨name, b⟩, he, hr⟩
  · obtain ⟨binding, hb, rfl⟩ := Option.map_eq_some_iff.1 hr
    have declared : s.Declared (.group name) _ := .block (OrderedMap.get?_of_mem hn.groups.keys he)
    rw [hb] at declared
    exact ⟨.group name, declared, rfl⟩
  · have found := OrderedMap.get?_of_mem hn.textures.keys he
    unfold textureResources at hr
    split at hr
    · cases hr
    · next binding hb =>
      rcases List.mem_pair.1 hr with rfl | rfl
      · have declared : s.Declared (.texture name) _ := .texture found
        rw [hb] at declared
        exact ⟨.texture name, declared, rfl⟩
      · have declared : s.Declared (.texture name) _ := .sampler found
        rw [hb] at declared
        exact ⟨.texture name, declared, rfl⟩
  · obtain ⟨binding, hb, rfl⟩ := Option.map_eq_some_iff.1 hr
    have declared : s.Declared (.storage name) _ :=
      .buffer (OrderedMap.get?_of_mem hn.storage.keys he)
    rw [hb] at declared
    exact ⟨.storage name, declared, rfl⟩

/-- What is bound for an item that has its number is listed. -/
theorem listed_of_declared (hi : s.Bound i) (hd : s.Declared i d) :
    ∃ r ∈ s.resources active, r.declared = d := by
  cases hi with
  | @group name g hg hb =>
    have buffer : (s.uniformBuffer? active name g).isSome := by
      rwa [uniformBuffer?, Option.isSome_map]
    obtain ⟨r, hr⟩ := Option.isSome_iff_exists.1 buffer
    refine ⟨r, mem_resources_iff.2 (.inl ⟨_, OrderedMap.mem_of_find? hg, hr⟩), ?_⟩
    obtain ⟨binding, hb, rfl⟩ := Option.map_eq_some_iff.1 hr
    cases hd with
    | block hg' =>
      cases hg.symm.trans hg'
      rw [hb]
      rfl
  | @texture name e he hb =>
    obtain ⟨binding, hb⟩ := Option.isSome_iff_exists.1 hb
    have listed : ∀ r ∈ s.textureResources active name e, r ∈ s.resources active :=
      fun r hr => mem_resources_iff.2 (.inr (.inl ⟨_, OrderedMap.mem_of_find? he, hr⟩))
    unfold textureResources at listed
    rw [hb] at listed
    cases hd with
    | texture he' =>
      cases he.symm.trans he'
      rw [hb]
      exact ⟨_, listed _ (.head _), rfl⟩
    | sampler he' =>
      cases he.symm.trans he'
      rw [hb]
      exact ⟨_, listed _ (.tail _ (.head _)), rfl⟩
  | @storage name b he hb =>
    have buffer : (s.storageResource? active name b).isSome := by
      rwa [storageResource?, Option.isSome_map]
    obtain ⟨r, hr⟩ := Option.isSome_iff_exists.1 buffer
    refine ⟨r, mem_resources_iff.2 (.inr (.inr ⟨_, OrderedMap.mem_of_find? he, hr⟩)), ?_⟩
    obtain ⟨binding, hb, rfl⟩ := Option.map_eq_some_iff.1 hr
    cases hd with
    | buffer he' =>
      cases he.symm.trans he'
      rw [hb]
      rfl

/-- The numbers of what is listed are those that the tables hold. -/
theorem map_binding_resources :
    ((s.resources active).map Resource.binding).Perm s.inputs.bindings := by
  refine ((sortBy_perm _ _).map Resource.binding).trans (.of_eq ?_)
  rw [List.map_append, List.map_append]
  refine congrArg₂ _ (congrArg₂ _ ?_ ?_) ?_
  · rw [List.map_filterMap, List.filterMap_eq_flatMap_toList]
    refine List.flatMap_congr fun e _ => ?_
    unfold uniformBuffer?
    cases e.2.binding <;> rfl
  · rw [List.map_flatMap]
    refine List.flatMap_congr fun e _ => ?_
    unfold textureResources TextureEntry.bindings
    cases e.2.binding <;> rfl
  · rw [List.map_filterMap, List.filterMap_eq_flatMap_toList]
    refine List.flatMap_congr fun e _ => ?_
    unfold storageResource?
    cases e.2.binding <;> rfl

/-- What is listed is counted up. -/
theorem binding_resources (hn : s.inputs.Numbered) :
    (s.resources active).map Resource.binding = List.range s.nextBinding := by
  refine eq_range_of_perm (map_binding_resources.trans hn.bindings) ?_
  exact List.pairwise_map.2 (pairwise_sortByNumber _ _)

/-- What is listed for a stage is what its program declares. -/
theorem visibility_eq (h : s.Assembles p active a) (used : StageBuild → Bool)
    (hactive : active = Stage.all.filter fun t => active.contains t) :
    s.visibility active used =
      (a.programs.filter fun prog => used (s.stages.get prog.stage)).map ProgramOf.stage := by
  have filtered := List.filter_map (f := ProgramOf.stage) (p := fun t => used (s.stages.get t))
    (l := a.programs)
  rw [h.stages] at filtered
  refine Eq.trans ?_ filtered
  conv_rhs => rw [hactive, List.filter_filter]
  exact List.filter_congr fun t _ => Bool.and_comm _ _

end BuildState

/-- Bindings are counted up, and each has its own name. Programs declare what they use under the
number that is listed, and what is listed is listed for the programs that declare it. -/
theorem bindings_agree (h : build g request options host = .ok a) :
    a.programs.map ProgramOf.stage = request.stages ∧
      a.bindings.map Resource.binding = List.range a.bindings.length ∧
      (a.bindings.map fun r => r.declared.handle).Nodup ∧
      (∀ prog ∈ a.programs, prog.bindings ⊆ a.bindings.map Resource.declared) ∧
      ∀ r ∈ a.bindings, r.visibility =
        (a.programs.filter fun prog => r.declared.handle ∈ prog.handles).map ProgramOf.stage := by
  obtain ⟨p, s, -, -, assembles, records⟩ := recorded_of_build h
  have numbered := records.numbered (InputTables.numbered_start p)
  have named := records.enters.named (BuildState.named_start p)
  have numbers := @BuildState.binding_resources s request.stages numbered
  rw [← assembles.bindings] at numbers
  have nodup : (a.bindings.map Resource.binding).Nodup := numbers ▸ List.nodup_range
  refine ⟨assembles.stages, ?_, ?_, fun prog hprog d hd => ?_, fun r hr => ?_⟩
  · exact eq_range_length numbers
  · refine nodup.of_map.map_on fun r hr r' hr' he => ?_
    rw [assembles.bindings] at hr hr'
    obtain ⟨i, declared, -⟩ := BuildState.mem_resources numbered hr
    obtain ⟨j, declared', -⟩ := BuildState.mem_resources numbered hr'
    have same := (BuildState.eq_of_declared named declared declared' he).2
    rw [← assembles.bindings] at hr hr'
    refine List.inj_on_of_nodup_map nodup hr hr' ?_
    rw [← r.number_declared, ← r'.number_declared, same]
  · obtain ⟨i, binds, declared⟩ := (BuildState.mem_bindings (assembles.programs prog hprog)).1 hd
    rw [assembles.bindings]
    obtain ⟨r, hr, rfl⟩ := BuildState.listed_of_declared
      (BuildState.bound_of_binds numbered binds) declared
    exact List.mem_map_of_mem hr
  · rw [assembles.bindings] at hr
    obtain ⟨i, declared, visible⟩ := BuildState.mem_resources numbered hr
    rw [visible, BuildState.visibility_eq assembles _ request.stages_eq]
    refine congrArg _ (List.filter_congr fun prog hprog => ?_)
    have presents := assembles.programs prog hprog
    rw [Bool.eq_iff_iff, decide_eq_true_iff, Program.handles, List.mem_map]
    constructor
    · exact fun binds => ⟨_, (BuildState.mem_bindings presents).2 ⟨i, binds, declared⟩, rfl⟩
    · rintro ⟨d, hd, he⟩
      obtain ⟨j, binds, declared'⟩ := (BuildState.mem_bindings presents).1 hd
      exact (BuildState.eq_of_declared named declared' declared he).1 ▸ binds

/-- Whether a build succeeds and what it hands over passes a check. -/
def achieves (check : Artifact → Bool) : Except Failure Artifact → Bool
  | .ok a => check a
  | .error _ => false

theorem of_achieves {check : Artifact → Bool} {r : Except Failure Artifact}
    (h : achieves check r = true) : ∃ a, r = .ok a ∧ check a = true := by
  unfold achieves at h
  split at h
  · next a => exact ⟨a, rfl, h⟩
  · cases h

/-- A texture that is sampled where the vertex program says and mixed with a uniform. -/
def textured : Graph := .ofNodes
  [.meshAttribute "uv" none, .varying ⟨0⟩ none .perspective none, .texture "albedo" ⟨1⟩ none,
    .uniform "tint" .vec4 none .frame [1], .operator .mul ⟨2⟩ ⟨3⟩, .const .vec4 [0]]

/-- A texture, its sampler and the block of a uniform are bound for the fragment program. -/
theorem textured_bindings : ∃ a,
    build textured ⟨some ⟨5⟩, some ⟨4⟩, none⟩ (.ofDialect .wgsl) = .ok a ∧
      a.bindings.map Resource.binding = [0, 1, 2] ∧
      ∀ r ∈ a.bindings, r.visibility =
        (a.programs.filter fun prog => r.declared.handle ∈ prog.handles).map ProgramOf.stage := by
  have three : achieves (fun a => a.bindings.length = 3)
      (build textured ⟨some ⟨5⟩, some ⟨4⟩, none⟩ (.ofDialect .wgsl)) = true := by
    decide +kernel
  obtain ⟨a, ha, hlength⟩ := of_achieves three
  obtain ⟨-, numbers, -, -, visible⟩ := bindings_agree ha
  rw [of_decide_eq_true hlength] at numbers
  exact ⟨a, ha, numbers, visible⟩

/-! ### Locations -/

/-- How an attribute is listed that a program declares. -/
def LocationDecl.input (d : LocationDecl ValueType) : AttributeInput := ⟨d.name, d.type, d.location⟩

/-- How a varying is listed that a program declares. -/
def LocationDecl.link (d : LocationDecl ValueType) : VaryingLink :=
  ⟨d.name, d.type, d.location, d.interpolation, d.sampling⟩

section

variable {κ α β γ : Type} {m : OrderedMap κ α} {number : α → Option Nat}
  {lists : Stage → List κ} {t : Stage} {decl : α → β} {entry : α → Nat → γ} {link : β → γ}
  {loc : β → Nat} {place : γ → Nat} {n : Nat}

/-- What has a number is listed by it, and the numbers are counted up. -/
theorem map_sortByNumber_eq_range
    (hm : (m.entries.flatMap fun e => (number e.2).toList).Perm (List.range n))
    (hentry : ∀ a n, place (entry a n) = n) :
    (sortByNumber place (m.values.filterMap fun a => (number a).map (entry a))).map place =
      List.range n := by
  refine eq_range_of_perm (.trans ((sortBy_perm _ _).map place) (.trans (.of_eq ?_) hm))
    (List.pairwise_map.2 (pairwise_sortByNumber _ _))
  rw [List.map_filterMap, OrderedMap.values, List.filterMap_map, List.filterMap_eq_flatMap_toList]
  refine List.flatMap_congr fun e _ => ?_
  rw [Function.comp_apply, Option.map_map]
  cases number e.2 with
  | none => rfl
  | some n => exact congrArg (fun n => [n]) (hentry e.2 n)

variable [DecidableEq κ]

/-- What a stage declares has numbers of its own. -/
theorem OrderedMap.Listed.nodup_numbers (h : m.Listed number lists)
    (hm : (m.entries.flatMap fun e => (number e.2).toList).Nodup)
    (hloc : ∀ a n, number a = some n → loc (decl a) = n) (t : Stage) :
    (((lists t).filterMap fun k => (m.get? k).map decl).map loc).Nodup := by
  rw [List.map_filterMap]
  refine (List.Pairwise.and_mem.1 (h.once t)).filterMap _ ?_
  rintro k k' ⟨hk, hk', hne⟩ n hn n' hn' he
  obtain ⟨a, ha, located⟩ := h.numbered t k hk
  obtain ⟨b, hb, located'⟩ := h.numbered t k' hk'
  obtain ⟨l, hl⟩ := Option.isSome_iff_exists.1 located
  obtain ⟨l', hl'⟩ := Option.isSome_iff_exists.1 located'
  rw [ha, Option.map_some, Option.map_some, hloc a l hl] at hn
  rw [hb, Option.map_some, Option.map_some, hloc b l' hl', ← he, ← hn] at hn'
  rw [Option.some.inj hn'] at hl'
  exact hne (OrderedMap.key_eq_of_nodup hm ha hb (Option.mem_toList.2 hl) (Option.mem_toList.2 hl'))

/-- What is listed by its numbers is what a stage declares that declares all of it. -/
theorem OrderedMap.Listed.sorted_eq (h : m.Listed number lists)
    (hm : (m.entries.flatMap fun e => (number e.2).toList).Perm (List.range n))
    (hentry : ∀ a n, place (entry a n) = n) (hplace : ∀ b, place (link b) = loc b)
    (hlink : ∀ a n, number a = some n → link (decl a) = entry a n)
    (all : ∀ k a, m.get? k = some a → (number a).isSome → k ∈ lists t) :
    sortByNumber place (m.values.filterMap fun a => (number a).map (entry a)) =
      (sortByNumber loc ((lists t).filterMap fun k => (m.get? k).map decl)).map link := by
  have hloc : ∀ a n, number a = some n → loc (decl a) = n := fun a n ha => by
    rw [← hplace, hlink a n ha, hentry]
  have numbers := h.nodup_numbers (hm.nodup_iff.2 List.nodup_range) hloc t
  have sorted := ((sortBy_perm (fun a b => loc a < loc b) _).map loc).nodup_iff.2 numbers
  have places : ∀ bs : List β, (bs.map link).map place = bs.map loc := fun bs => by
    rw [List.map_map]
    exact List.map_congr_left fun b _ => hplace b
  refine eq_of_mem_iff (f := place) ?_ ?_ (pairwise_sortByNumber _ _) ?_ fun c => ?_
  · rw [map_sortByNumber_eq_range hm hentry]
    exact List.nodup_range
  · rw [places]
    exact sorted
  · refine List.pairwise_map.2 ((pairwise_sortByNumber loc _).imp fun {b b'} hb => ?_)
    rwa [hplace, hplace]
  simp only [sortByNumber, mem_sortBy, List.mem_filterMap, List.mem_map, OrderedMap.values,
    Option.map_eq_some_iff]
  constructor
  · rintro ⟨a, ⟨⟨k, a'⟩, he, rfl⟩, l, hl, rfl⟩
    have found := OrderedMap.get?_of_mem h.keys he
    exact ⟨_, ⟨k, all k a' found (hl ▸ rfl), a', found, rfl⟩, hlink a' l hl⟩
  · rintro ⟨_, ⟨k, hk, a, ha, rfl⟩, rfl⟩
    obtain ⟨a', ha', located⟩ := h.numbered t k hk
    cases ha.symm.trans ha'
    obtain ⟨l, hl⟩ := Option.isSome_iff_exists.1 located
    exact ⟨a, ⟨⟨k, a⟩, OrderedMap.mem_of_find? ha, rfl⟩, l, hl, (hlink a l hl).symm⟩

end

namespace BuildState

variable {s : BuildState} {p : Plan} {prog : Program}

/-- The attributes that are listed are those that the vertex program declares. -/
theorem attributeInputs_eq (hn : s.inputs.Numbered) (h : s.Presents p .vertex prog) :
    s.attributeInputs = prog.attributes.map LocationDecl.input := by
  rw [h.attributes]
  refine hn.attributes.sorted_eq hn.attributeLocations (fun _ _ => rfl) (fun _ => rfl) ?_ hn.read
  intro e l hl
  rw [hl]
  rfl

/-- The varyings that are listed are those that the vertex program declares. -/
theorem varyingLinks_eq (hn : s.inputs.Numbered) (h : s.Presents p .vertex prog) :
    s.varyingLinks = prog.varyings.map LocationDecl.link := by
  rw [h.varyings]
  refine hn.varyings.sorted_eq hn.varyingLocations (fun _ _ => rfl) (fun _ => rfl) ?_ hn.written
  intro v l hl
  rw [hl]
  rfl

/-- What a program declares as a varying is one that is entered, and has its location. -/
theorem mem_varyings (hn : s.inputs.Numbered) {t : Stage} (h : s.Presents p t prog)
    {d : LocationDecl ValueType} (hd : d ∈ prog.varyings) : ∃ id v,
      s.varyings.get? id = some v ∧ v.location.isSome ∧ s.varyingDecl? id = some d := by
  rw [h.varyings, sortByNumber, mem_sortBy, List.mem_filterMap] at hd
  obtain ⟨id, hid, hd⟩ := hd
  obtain ⟨v, hv, located⟩ := hn.varyings.numbered t id hid
  exact ⟨id, v, hv, located, hd⟩

end BuildState

variable {vp fp : Program}

/-- What the fragment program reads the vertex program declares in the same way. The locations of
varyings and of attributes are counted up, they are listed as they are declared, and whole numbers
are not interpolated. -/
theorem interfaces_match (h : build g request options host = .ok a) (hv : vp ∈ a.programs)
    (hvs : vp.stage = .vertex) (hf : fp ∈ a.programs) (hfs : fp.stage = .fragment) :
    fp.varyings ⊆ vp.varyings ∧
      vp.varyings.map LocationDecl.location = List.range vp.varyings.length ∧
      a.varyings = vp.varyings.map LocationDecl.link ∧
      (∀ d ∈ vp.varyings, d.type.scalarKind = some .int ∨ d.type.scalarKind = some .uint →
        d.interpolation = .flat) ∧
      vp.attributes.map LocationDecl.location = List.range vp.attributes.length ∧
      a.attributes = vp.attributes.map LocationDecl.input := by
  obtain ⟨p, s, -, -, assembles, records⟩ := recorded_of_build h
  have numbered := records.numbered (InputTables.numbered_start p)
  have vertex := assembles.programs vp hv
  rw [hvs] at vertex
  have fragment := assembles.programs fp hf
  rw [hfs] at fragment
  have varyings := BuildState.varyingLinks_eq numbered vertex
  have attributes := BuildState.attributeInputs_eq numbered vertex
  have varyingNumbers : s.varyingLinks.map VaryingLink.location = List.range s.nextVarying :=
    map_sortByNumber_eq_range numbered.varyingLocations fun _ _ => rfl
  have attributeNumbers : s.attributeInputs.map AttributeInput.location =
      List.range s.nextAttribute :=
    map_sortByNumber_eq_range numbered.attributeLocations fun _ _ => rfl
  rw [varyings, List.map_map] at varyingNumbers
  rw [attributes, List.map_map] at attributeNumbers
  refine ⟨fun d hd => ?_, ?_, assembles.varyings.trans varyings, fun d hd hk => ?_, ?_,
    assembles.attributes.trans attributes⟩
  · obtain ⟨id, v, hv, located, declared⟩ := BuildState.mem_varyings numbered fragment hd
    rw [vertex.varyings, sortByNumber, mem_sortBy]
    exact List.mem_filterMap.2 ⟨id, numbered.written id v hv located, declared⟩
  · exact eq_range_length varyingNumbers
  · obtain ⟨id, v, hv, -, declared⟩ := BuildState.mem_varyings numbered vertex hd
    have flat := numbered.flat id v hv
    obtain ⟨v', hv', rfl⟩ := Option.map_eq_some_iff.1 declared
    cases hv.symm.trans hv'
    unfold interpolationFor at flat
    rcases hk with hk | hk
    all_goals
      rw [hk] at flat
      exact flat.symm
  · exact eq_range_length attributeNumbers

/-- The two programs of `textured` share the varying that the texture is sampled at. -/
theorem textured_interfaces : ∃ a,
    build textured ⟨some ⟨5⟩, some ⟨4⟩, none⟩ (.ofDialect .wgsl) = .ok a ∧
      ∃ vp ∈ a.programs, vp.stage = .vertex ∧ ∃ fp ∈ a.programs, fp.stage = .fragment ∧
        fp.varyings ⊆ vp.varyings ∧ vp.varyings.map LocationDecl.location = [0] ∧
          a.attributes = vp.attributes.map LocationDecl.input := by
  have one : achieves (fun a => a.programs.any fun vp => vp.stage = .vertex &&
        vp.varyings.length = 1 && a.programs.any fun fp => fp.stage = .fragment)
      (build textured ⟨some ⟨5⟩, some ⟨4⟩, none⟩ (.ofDialect .wgsl)) = true := by
    decide +kernel
  obtain ⟨a, ha, hany⟩ := of_achieves one
  obtain ⟨vp, hvp, hv⟩ := List.any_eq_true.1 hany
  obtain ⟨hv, hany⟩ := Bool.and_eq_true_iff.1 hv
  obtain ⟨hvs, hlength⟩ := Bool.and_eq_true_iff.1 hv
  obtain ⟨fp, hfp, hfs⟩ := List.any_eq_true.1 hany
  have hvs := of_decide_eq_true hvs
  have hfs := of_decide_eq_true hfs
  obtain ⟨shared, numbers, -, -, -, attributes⟩ := interfaces_match ha hvp hvs hfp hfs
  rw [of_decide_eq_true hlength] at numbers
  exact ⟨a, ha, vp, hvp, hvs, fp, hfp, hfs, shared, numbers, attributes⟩

end ShaderGraph
