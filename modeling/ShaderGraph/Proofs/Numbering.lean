import Mathlib.Data.List.Pairwise
import ShaderGraph.Proofs.Inputs

/-!
# Groups and numbers of inputs

A uniform is a member of the block of its group. `InputTables.Grouped` says that the members of a
group are its uniforms, in the order in which they were entered, and `InputTables.Timed` that a
uniform that is refreshed is refreshed as often as its group.

Uniform groups, textures and storage buffers share one count of bindings; attributes and varyings
have counts of locations of their own. `InputTables.Numbered` says that the numbers below a count
were given out once each, and that a stage declares only what has its number.

The theorems of this file say which changes of the tables keep to these.
-/

namespace ShaderGraph

/-! ## Groups of uniforms -/

namespace InputTables

/-- The members of a block, as far as the uniforms tell. -/
def membersOf (i : InputTables) (group : String) : List (String × ValueType) :=
  (i.uniforms.entries.filter fun u => u.1.group = group).map fun u => (u.2.member, u.2.type)

/-- The members of a group are its uniforms. -/
structure Grouped (i : InputTables) : Prop where
  keys : i.uniforms.keys.Nodup
  entered : ∀ key u, i.uniforms.get? key = some u → (i.groups.get? key.group).isSome
  members : ∀ group g, i.groups.get? group = some g → g.members = i.membersOf group

/-- A uniform that is refreshed is refreshed as often as its group. -/
def Timed (i : InputTables) (key : UniformKey) : Prop :=
  ∀ u, i.uniforms.get? key = some u → u.update ≠ .none →
    ∃ g, i.groups.get? key.group = some g ∧ g.cadence = some u.update

/-- At the start there are no uniforms. -/
theorem grouped_start (p : Plan) : (BuildState.start p).inputs.Grouped where
  keys := .nil
  entered _ _ h := nomatch h
  members _ _ h := nomatch h

theorem timed_start (p : Plan) (key : UniformKey) : (BuildState.start p).inputs.Timed key :=
  fun _ h => nomatch h

/-- The other tables do not matter. -/
theorem Grouped.of_eq {i i' : InputTables} (h : i.Grouped) (hu : i'.uniforms = i.uniforms)
    (hg : i'.groups = i.groups) : i'.Grouped where
  keys := hu ▸ h.keys
  entered := hu ▸ hg ▸ h.entered
  members := by
    unfold membersOf
    rw [hu, hg]
    exact h.members

theorem Timed.of_eq {i i' : InputTables} {key : UniformKey} (h : i.Timed key)
    (hu : i'.uniforms = i.uniforms) (hg : i'.groups = i.groups) : i'.Timed key := by
  unfold Timed
  rw [hu, hg]
  exact h

variable {s : BuildState} {group : String} {g g' : GroupEntry} {key : UniformKey}

/-- A group without an entry has no uniforms. -/
theorem Grouped.membersOf_eq_nil (h : s.inputs.Grouped) (hnew : s.groups.get? group = none) :
    s.inputs.membersOf group = [] := by
  rw [membersOf, List.map_eq_nil_iff, List.filter_eq_nil_iff]
  rintro ⟨key, u⟩ hmem hgroup
  have entered := h.entered key u (OrderedMap.get?_of_mem h.keys hmem)
  rw [show key.group = group by simpa using hgroup,
    show s.inputs.groups.get? group = none from hnew] at entered
  cases entered

/-- A group is entered without members. -/
theorem Grouped.enterGroup (h : s.inputs.Grouped) (hnew : s.groups.get? group = none)
    (hm : g.members = []) : { s with groups := s.groups.put group g }.inputs.Grouped where
  keys := h.keys
  entered key u hu := by
    show ((s.groups.put group g).get? key.group).isSome
    rw [OrderedMap.get?_put]
    split
    · rfl
    · exact h.entered key u hu
  members group' g' hg' := by
    rcases OrderedMap.get?_of_put hg' with ⟨rfl, rfl⟩ | ⟨-, hg'⟩
    · rw [hm]
      exact (h.membersOf_eq_nil hnew).symm
    · exact h.members group' g' hg'

/-- The entry of a group is replaced by one with the same members. -/
theorem Grouped.putGroup (h : s.inputs.Grouped) (hg : s.groups.get? group = some g)
    (hm : g'.members = g.members) :
    { s with groups := s.groups.put group g' }.inputs.Grouped where
  keys := h.keys
  entered key u hu := by
    show ((s.groups.put group g').get? key.group).isSome
    rw [OrderedMap.get?_put]
    split
    · rfl
    · exact h.entered key u hu
  members group' g'' hg'' := by
    rcases OrderedMap.get?_of_put hg'' with ⟨rfl, rfl⟩ | ⟨-, hg''⟩
    · exact hm.trans (h.members _ g hg)
    · exact h.members group' g'' hg''

/-- A new uniform is the last member of its group. -/
theorem Grouped.enterUniform (h : s.inputs.Grouped) {u : UniformEntry}
    (hnew : s.uniforms.get? key = none) (hg : s.groups.get? key.group = some g)
    (hm : g'.members = g.members ++ [(u.member, u.type)]) :
    { s with
      groups := s.groups.put key.group g'
      uniforms := s.uniforms.put key u }.inputs.Grouped where
  keys := OrderedMap.nodup_keys_put h.keys key u
  entered key' u' hu' := by
    show ((s.groups.put key.group g').get? key'.group).isSome
    rw [OrderedMap.get?_put]
    split
    · rfl
    · next hne =>
      rcases OrderedMap.get?_of_put hu' with ⟨rfl, -⟩ | ⟨-, hu'⟩
      · exact absurd rfl hne
      · exact h.entered key' u' hu'
  members group g'' hg'' := by
    have own : ∀ group, ((s.uniforms.put key u).entries.filter fun u => u.1.group = group) =
        (s.uniforms.entries.filter fun u => u.1.group = group) ++
          if key.group = group then [(key, u)] else [] := by
      intro group
      rw [OrderedMap.entries_put_of_none hnew, List.filter_append]
      by_cases he : key.group = group
      · simp [he]
      · simp [he]
    show g''.members = ((s.uniforms.put key u).entries.filter fun u => u.1.group = group).map
      fun u => (u.2.member, u.2.type)
    rw [own, List.map_append]
    rcases OrderedMap.get?_of_put hg'' with ⟨rfl, rfl⟩ | ⟨hne, hg''⟩
    · rw [hm, h.members _ g hg, if_pos rfl]
      rfl
    · rw [if_neg (Ne.symm hne), List.map_nil, List.append_nil]
      exact h.members group g'' hg''

/-- A group may be entered or changed when it keeps its cadence. -/
theorem Timed.putGroup (h : s.inputs.Timed key)
    (hc : ∀ g, s.groups.get? group = some g → g.cadence ≠ none → g'.cadence = g.cadence) :
    { s with groups := s.groups.put group g' }.inputs.Timed key := by
  intro u hu hn
  obtain ⟨g, hg, cadence⟩ := h u hu hn
  show ∃ g, (s.groups.put group g').get? key.group = some g ∧ g.cadence = some u.update
  rw [OrderedMap.get?_put]
  split
  · next he => exact ⟨g', rfl,
      (hc g (he ▸ hg) (by rw [cadence]; exact Option.some_ne_none _)).trans cadence⟩
  · exact ⟨g, hg, cadence⟩

/-- Other uniforms may be entered. -/
theorem Timed.putUniform (h : s.inputs.Timed key) {key' : UniformKey} {u : UniformEntry}
    (hne : key ≠ key') : { s with uniforms := s.uniforms.put key' u }.inputs.Timed key := by
  intro u' hu' hn
  rcases OrderedMap.get?_of_put hu' with ⟨he, -⟩ | ⟨-, hu'⟩
  · exact absurd he hne
  · exact h u' hu' hn

end InputTables

/-! ## Numbers of inputs -/

/-- What a stage lists it still lists when its lists grow. -/
theorem PerStage.mem_modify {κ : Type} {k : κ} {stages : PerStage StageBuild} {t u : Stage}
    {f : StageBuild → StageBuild} (list : StageBuild → List κ)
    (hf : ∀ b, k ∈ list b → k ∈ list (f b))
    (h : k ∈ list (stages.get u)) : k ∈ list ((stages.modify t f).get u) := by
  rw [get_modify]
  split
  · exact hf _ h
  · exact h

namespace OrderedMap

variable {κ α : Type} [DecidableEq κ] {m : OrderedMap κ α} {number : α → Option Nat}
  {lists : Stage → List κ} {k : κ} {a b : α}

/-- The stages list different entries of a table, all of which have their number. -/
structure Listed (m : OrderedMap κ α) (number : α → Option Nat)
    (lists : Stage → List κ) : Prop where
  keys : m.keys.Nodup
  once : ∀ t, (lists t).Nodup
  numbered : ∀ t, ∀ k ∈ lists t, ∃ a, m.get? k = some a ∧ (number a).isSome

theorem listed_empty : (empty : OrderedMap κ α).Listed number fun _ => [] where
  keys := .nil
  once _ := .nil
  numbered _ _ hk := nomatch hk

/-- An entry may replace one that has no number or when it has one itself. -/
theorem Listed.put (h : m.Listed number lists)
    (hb : ∀ a, m.get? k = some a → (number a).isSome → (number b).isSome) :
    (m.put k b).Listed number lists where
  keys := nodup_keys_put h.keys k b
  once := h.once
  numbered t k' hk' := by
    obtain ⟨a, ha, hn⟩ := h.numbered t k' hk'
    rw [get?_put]
    split
    · next he => exact ⟨b, rfl, hb a (he ▸ ha) hn⟩
    · exact ⟨a, ha, hn⟩

variable {stages : PerStage StageBuild} {t : Stage} {f : StageBuild → StageBuild}
  (list : StageBuild → List κ)

/-- A stage lists an entry that has its number. -/
theorem Listed.add (h : m.Listed number fun u => list (stages.get u))
    (hf : ∀ b, list (f b) = appendNew (list b) k) (ha : m.get? k = some a)
    (hn : (number a).isSome) : m.Listed number fun u => list ((stages.modify t f).get u) where
  keys := h.keys
  once u := by
    rw [PerStage.get_modify]
    split
    · exact hf _ ▸ nodup_appendNew (h.once u)
    · exact h.once u
  numbered u k' hk' := by
    rw [PerStage.get_modify] at hk'
    split at hk'
    · rcases mem_appendNew.1 (hf _ ▸ hk') with hk' | rfl
      · exact h.numbered u k' hk'
      · exact ⟨a, ha, hn⟩
    · exact h.numbered u k' hk'

/-- The stages list what they did. -/
theorem Listed.same (h : m.Listed number fun u => list (stages.get u))
    (hf : ∀ b, list (f b) = list b) : m.Listed number fun u =>
    list ((stages.modify t f).get u) where
  keys := h.keys
  once u := (stages.map_get_modify t u hf).symm ▸ h.once u
  numbered u := (stages.map_get_modify t u hf).symm ▸ h.numbered u

/-- Entries that share a number are one. -/
theorem key_eq_of_nodup {f : κ × α → List Nat} (hm : (m.entries.flatMap f).Nodup) {k' : κ} {n : Nat}
    (ha : m.get? k = some a) (hb : m.get? k' = some b) (hn : n ∈ f (k, a)) (hn' : n ∈ f (k', b)) :
    k = k' := by
  by_contra hne
  have disjoint := (List.nodup_flatMap.1 hm).2
  have : Std.Symm (Function.onFun List.Disjoint f) := ⟨fun _ _ h => h.symm⟩
  exact disjoint.forall (mem_of_find? ha) (mem_of_find? hb)
    (fun h => hne (congrArg Prod.fst h)) hn hn'

end OrderedMap

/-- The numbers that a texture and its sampler are bound at. -/
def TextureEntry.bindings (t : TextureEntry) : List Nat := t.binding.elim [] fun n => [n, n + 1]

namespace InputTables

/-- The numbers that uniform groups, textures and storage buffers are bound at. -/
def bindings (i : InputTables) : List Nat :=
  (i.groups.entries.flatMap fun g => g.2.binding.toList) ++
    (i.textures.entries.flatMap fun t => t.2.bindings) ++
      i.storage.entries.flatMap fun b => b.2.binding.toList

/-- The locations of attributes. -/
def attributeLocations (i : InputTables) : List Nat :=
  i.attributes.entries.flatMap fun a => a.2.location.toList

/-- The locations of varyings. -/
def varyingLocations (i : InputTables) : List Nat :=
  i.varyings.entries.flatMap fun v => v.2.location.toList

/-- The numbers below each count were given out once, and stages declare what has its number. -/
structure Numbered (i : InputTables) : Prop where
  bindings : i.bindings.Perm (List.range i.nextBinding)
  attributeLocations : i.attributeLocations.Perm (List.range i.nextAttribute)
  varyingLocations : i.varyingLocations.Perm (List.range i.nextVarying)
  groups : i.groups.Listed GroupEntry.binding fun t => (i.lists t).groups
  textures : i.textures.Listed TextureEntry.binding fun t => (i.lists t).textures
  storage : i.storage.Listed StorageEntry.binding fun t => (i.lists t).storage
  attributes : i.attributes.Listed AttributeEntry.location fun t => (i.lists t).attributes
  varyings : i.varyings.Listed VaryingEntry.location fun t => (i.lists t).varyings
  /-- The vertex program declares all attributes and varyings that have a location. -/
  read : ∀ k a, i.attributes.get? k = some a → a.location.isSome → k ∈ (i.lists .vertex).attributes
  written : ∀ id v, i.varyings.get? id = some v → v.location.isSome →
    id ∈ (i.lists .vertex).varyings
  /-- Whole numbers are not interpolated. -/
  flat : ∀ id v, i.varyings.get? id = some v →
    Build.interpolationFor v.type v.interpolation = v.interpolation

/-- At the start nothing has a number. -/
theorem numbered_start (p : Plan) : (BuildState.start p).inputs.Numbered := by
  have lists : (fun t => ((BuildState.start p).stages.get t).inputs) =
      fun _ => ⟨[], [], [], [], []⟩ := by
    funext t
    cases t <;> rfl
  unfold BuildState.inputs
  rw [lists]
  exact {
    bindings := .nil
    attributeLocations := .nil
    varyingLocations := .nil
    groups := OrderedMap.listed_empty
    textures := OrderedMap.listed_empty
    storage := OrderedMap.listed_empty
    attributes := OrderedMap.listed_empty
    varyings := OrderedMap.listed_empty
    read := fun _ _ h => nomatch h
    written := fun _ _ h => nomatch h
    flat := fun _ _ h => nomatch h }

end InputTables

namespace InputTables.Numbered

variable {s : BuildState} {t : Stage} (h : s.inputs.Numbered)

include h

/-! ### Bindings -/

/-- A stage declares more resources; its attributes and varyings stay. -/
theorem declare {f : StageBuild → StageBuild} (ha : ∀ b, (f b).attributes = b.attributes)
    (hv : ∀ b, (f b).varyings = b.varyings)
    (groups : s.groups.Listed GroupEntry.binding fun u => ((s.stages.modify t f).get u).groups)
    (textures : s.textures.Listed TextureEntry.binding fun u =>
      ((s.stages.modify t f).get u).textures)
    (storage : s.storage.Listed StorageEntry.binding fun u =>
      ((s.stages.modify t f).get u).storage) :
    { s with stages := s.stages.modify t f }.inputs.Numbered :=
  { h with
    groups := groups
    textures := textures
    storage := storage
    attributes := h.attributes.same StageBuild.attributes ha
    varyings := h.varyings.same StageBuild.varyings hv
    read := fun k a hk hn =>
      PerStage.mem_modify StageBuild.attributes (fun b hb => (ha b).symm ▸ hb) (h.read k a hk hn)
    written := fun id v hid hn =>
      PerStage.mem_modify StageBuild.varyings (fun b hb => (hv b).symm ▸ hb)
        (h.written id v hid hn) }

/-- A group is entered without a number, or replaced by one with the same number. -/
theorem putGroup {group : String} {g : GroupEntry}
    (hg : ∀ g', s.groups.get? group = some g' → g.binding = g'.binding)
    (hnew : s.groups.get? group = none → g.binding = none) :
    { s with groups := s.groups.put group g }.inputs.Numbered :=
  { h with
    bindings := by
      have same : ((s.groups.put group g).entries.flatMap fun g => g.2.binding.toList) =
          s.groups.entries.flatMap fun g => g.2.binding.toList :=
        OrderedMap.flatMap_put (fun g' hg' => by rw [hg g' hg']) fun hn => by rw [hnew hn]; rfl
      have all := h.bindings
      unfold InputTables.bindings at all ⊢
      exact same ▸ all
    groups := h.groups.put fun g' hg' hn => hg g' hg' ▸ hn }

/-- A group gets the next number. -/
theorem bindGroup {group : String} {g : GroupEntry} (hg : s.groups.get? group = some g)
    (hn : g.binding = none) :
    { s with
      nextBinding := s.nextBinding + 1
      groups := s.groups.put group { g with binding := some s.nextBinding } }.inputs.Numbered :=
  { h with
    bindings := by
      have more := OrderedMap.flatMap_put_of_some hg { g with binding := some s.nextBinding }
        (fun g => g.2.binding.toList) [s.nextBinding] (by rw [hn]; rfl)
      exact perm_range_add h.bindings (perm_append_first more _ _)
    groups := h.groups.put fun _ _ _ => rfl }

/-- A stage declares the block of a group that has its number. -/
theorem listGroup {group : String} {g : GroupEntry} (hg : s.groups.get? group = some g)
    (hn : g.binding.isSome) :
    { s with stages := s.stages.modify t fun b =>
      { b with groups := appendNew b.groups group } }.inputs.Numbered :=
  declare h (fun _ => rfl) (fun _ => rfl) (h.groups.add StageBuild.groups (fun _ => rfl) hg hn)
    (h.textures.same StageBuild.textures fun _ => rfl)
    (h.storage.same StageBuild.storage fun _ => rfl)

/-- A texture is entered without a number. -/
theorem enterTexture {name : String} {e : TextureEntry} (hnew : s.textures.get? name = none)
    (hn : e.binding = none) : { s with textures := s.textures.put name e }.inputs.Numbered :=
  { h with
    bindings := by
      have same : ((s.textures.put name e).entries.flatMap fun t => t.2.bindings) =
          s.textures.entries.flatMap fun t => t.2.bindings :=
        OrderedMap.flatMap_put (fun _ he => nomatch hnew.symm.trans he) fun _ => by
          rw [TextureEntry.bindings, hn]
          rfl
      have all := h.bindings
      unfold InputTables.bindings at all ⊢
      exact same ▸ all
    textures := h.textures.put fun _ he => nomatch hnew.symm.trans he }

/-- A texture and its sampler get the next two numbers. -/
theorem bindTexture {name : String} {e : TextureEntry} (he : s.textures.get? name = some e)
    (hn : e.binding = none) :
    { s with
      nextBinding := s.nextBinding + 2
      textures := s.textures.put name { e with binding := some s.nextBinding } }.inputs.Numbered :=
  { h with
    bindings := by
      have more := OrderedMap.flatMap_put_of_some he { e with binding := some s.nextBinding }
        (fun t => t.2.bindings) [s.nextBinding, s.nextBinding + 1]
        (by rw [TextureEntry.bindings, TextureEntry.bindings, hn]; rfl)
      exact perm_range_add h.bindings (perm_append_second more _ _)
    textures := h.textures.put fun _ _ _ => rfl }

/-- A stage declares a texture that has its number. -/
theorem listTexture {name : String} {e : TextureEntry} (he : s.textures.get? name = some e)
    (hn : e.binding.isSome) :
    { s with stages := s.stages.modify t fun b =>
      { b with textures := appendNew b.textures name } }.inputs.Numbered :=
  declare h (fun _ => rfl) (fun _ => rfl) (h.groups.same StageBuild.groups fun _ => rfl)
    (h.textures.add StageBuild.textures (fun _ => rfl) he hn)
    (h.storage.same StageBuild.storage fun _ => rfl)

/-- A storage buffer is entered without a number, or replaced by one with the same number. -/
theorem putStorage {name : String} {e : StorageEntry}
    (he : ∀ e', s.storage.get? name = some e' → e.binding = e'.binding)
    (hnew : s.storage.get? name = none → e.binding = none) :
    { s with storage := s.storage.put name e }.inputs.Numbered :=
  { h with
    bindings := by
      have same : ((s.storage.put name e).entries.flatMap fun b => b.2.binding.toList) =
          s.storage.entries.flatMap fun b => b.2.binding.toList :=
        OrderedMap.flatMap_put (fun e' he' => by rw [he e' he']) fun hn => by rw [hnew hn]; rfl
      have all := h.bindings
      unfold InputTables.bindings at all ⊢
      exact same ▸ all
    storage := h.storage.put fun e' he' hn => he e' he' ▸ hn }

/-- A storage buffer gets the next number. -/
theorem bindStorage {name : String} {e : StorageEntry} (he : s.storage.get? name = some e)
    (hn : e.binding = none) :
    { s with
      nextBinding := s.nextBinding + 1
      storage := s.storage.put name { e with binding := some s.nextBinding } }.inputs.Numbered :=
  { h with
    bindings := by
      have more := OrderedMap.flatMap_put_of_some he { e with binding := some s.nextBinding }
        (fun b => b.2.binding.toList) [s.nextBinding] (by rw [hn]; rfl)
      refine perm_range_add h.bindings ((more.append_left _).trans ?_)
      rw [← List.append_assoc]
      exact .refl _
    storage := h.storage.put fun _ _ _ => rfl }

/-- A stage declares a storage buffer that has its number. -/
theorem listStorage {name : String} {e : StorageEntry} (he : s.storage.get? name = some e)
    (hn : e.binding.isSome) :
    { s with stages := s.stages.modify t fun b =>
      { b with storage := appendNew b.storage name } }.inputs.Numbered :=
  declare h (fun _ => rfl) (fun _ => rfl) (h.groups.same StageBuild.groups fun _ => rfl)
    (h.textures.same StageBuild.textures fun _ => rfl)
    (h.storage.add StageBuild.storage (fun _ => rfl) he hn)

/-! ### Locations -/

/-- An attribute is entered without a location. -/
theorem enterAttribute {name : String} {a : AttributeEntry} (hnew : s.attributes.get? name = none)
    (hn : a.location = none) : { s with attributes := s.attributes.put name a }.inputs.Numbered :=
  { h with
    attributeLocations := by
      have same : ((s.attributes.put name a).entries.flatMap fun a => a.2.location.toList) =
          s.attributes.entries.flatMap fun a => a.2.location.toList :=
        OrderedMap.flatMap_put (fun _ he => nomatch hnew.symm.trans he) fun _ => by rw [hn]; rfl
      have all := h.attributeLocations
      unfold InputTables.attributeLocations at all ⊢
      exact same ▸ all
    attributes := h.attributes.put fun _ he => nomatch hnew.symm.trans he
    read := fun k a' hk hn' => by
      rcases OrderedMap.get?_of_put hk with ⟨-, rfl⟩ | ⟨-, hk⟩
      · rw [hn] at hn'
        cases hn'
      · exact h.read k a' hk hn' }

/-- An attribute gets the next location, and the vertex program declares it. -/
theorem locateAttribute {name : String} {a : AttributeEntry} (ha : s.attributes.get? name = some a)
    (hn : a.location = none) :
    { s with
      attributes := s.attributes.put name { a with location := some s.nextAttribute }
      nextAttribute := s.nextAttribute + 1
      stages := s.stages.modify .vertex fun b =>
        { b with attributes := appendNew b.attributes name } }.inputs.Numbered :=
  { h with
    attributeLocations := by
      have more := OrderedMap.flatMap_put_of_some ha { a with location := some s.nextAttribute }
        (fun a => a.2.location.toList) [s.nextAttribute] (by rw [hn]; rfl)
      exact perm_range_add h.attributeLocations more
    groups := h.groups.same StageBuild.groups fun _ => rfl
    textures := h.textures.same StageBuild.textures fun _ => rfl
    storage := h.storage.same StageBuild.storage fun _ => rfl
    attributes := (h.attributes.put fun _ _ _ => rfl).add StageBuild.attributes (fun _ => rfl)
      ((OrderedMap.get?_put _ _ _ _).trans (if_pos rfl)) rfl
    varyings := h.varyings.same StageBuild.varyings fun _ => rfl
    read := fun k a' hk hn' => by
      show k ∈ appendNew (s.stages.get .vertex).attributes name
      rcases OrderedMap.get?_of_put hk with ⟨he, -⟩ | ⟨-, hk⟩
      · exact mem_appendNew.2 (.inr he)
      · exact mem_appendNew.2 (.inl (h.read k a' hk hn')) }

/-- A stage declares an attribute that has its location. -/
theorem listAttribute {name : String} {a : AttributeEntry} (ha : s.attributes.get? name = some a)
    (hn : a.location.isSome) :
    { s with stages := s.stages.modify t fun b =>
      { b with attributes := appendNew b.attributes name } }.inputs.Numbered :=
  { h with
    groups := h.groups.same StageBuild.groups fun _ => rfl
    textures := h.textures.same StageBuild.textures fun _ => rfl
    storage := h.storage.same StageBuild.storage fun _ => rfl
    attributes := h.attributes.add StageBuild.attributes (fun _ => rfl) ha hn
    varyings := h.varyings.same StageBuild.varyings fun _ => rfl
    read := fun k a' hk hn' => PerStage.mem_modify StageBuild.attributes
      (fun _ hb => mem_appendNew.2 (.inl hb)) (h.read k a' hk hn')
    written := fun id v hv hn' => by
      refine PerStage.mem_modify StageBuild.varyings ?_ (h.written id v hv hn')
      exact fun _ hb => hb }

/-- A varying is entered without a location. -/
theorem enterVarying {id : NodeId} {v : VaryingEntry} (hnew : s.varyings.get? id = none)
    (hn : v.location = none)
    (hf : Build.interpolationFor v.type v.interpolation = v.interpolation) :
    { s with varyings := s.varyings.put id v }.inputs.Numbered :=
  { h with
    varyingLocations := by
      have same : ((s.varyings.put id v).entries.flatMap fun v => v.2.location.toList) =
          s.varyings.entries.flatMap fun v => v.2.location.toList :=
        OrderedMap.flatMap_put (fun _ he => nomatch hnew.symm.trans he) fun _ => by rw [hn]; rfl
      have all := h.varyingLocations
      unfold InputTables.varyingLocations at all ⊢
      exact same ▸ all
    varyings := h.varyings.put fun _ he => nomatch hnew.symm.trans he
    written := fun id' v' hv hn' => by
      rcases OrderedMap.get?_of_put hv with ⟨-, rfl⟩ | ⟨-, hv⟩
      · rw [hn] at hn'
        cases hn'
      · exact h.written id' v' hv hn'
    flat := fun id' v' hv => by
      rcases OrderedMap.get?_of_put hv with ⟨-, rfl⟩ | ⟨-, hv⟩
      · exact hf
      · exact h.flat id' v' hv }

/-- A varying gets the next location, and the vertex program declares it. -/
theorem locateVarying {id : NodeId} {v w : VaryingEntry} (hw : s.varyings.get? id = some w)
    (hn : w.location = none)
    (hf : Build.interpolationFor v.type v.interpolation = v.interpolation) :
    { s with
      varyings := s.varyings.put id { v with location := some s.nextVarying }
      nextVarying := s.nextVarying + 1
      stages := s.stages.modify .vertex fun b =>
        { b with varyings := appendNew b.varyings id } }.inputs.Numbered :=
  { h with
    varyingLocations := by
      have more := OrderedMap.flatMap_put_of_some hw { v with location := some s.nextVarying }
        (fun v => v.2.location.toList) [s.nextVarying] (by rw [hn]; rfl)
      exact perm_range_add h.varyingLocations more
    groups := h.groups.same StageBuild.groups fun _ => rfl
    textures := h.textures.same StageBuild.textures fun _ => rfl
    storage := h.storage.same StageBuild.storage fun _ => rfl
    attributes := h.attributes.same StageBuild.attributes fun _ => rfl
    varyings := (h.varyings.put fun _ _ _ => rfl).add StageBuild.varyings (fun _ => rfl)
      ((OrderedMap.get?_put _ _ _ _).trans (if_pos rfl)) rfl
    written := fun id' v' hv hn' => by
      show id' ∈ appendNew (s.stages.get .vertex).varyings id
      rcases OrderedMap.get?_of_put hv with ⟨he, -⟩ | ⟨-, hv⟩
      · exact mem_appendNew.2 (.inr he)
      · exact mem_appendNew.2 (.inl (h.written id' v' hv hn'))
    flat := fun id' v' hv => by
      rcases OrderedMap.get?_of_put hv with ⟨-, rfl⟩ | ⟨-, hv⟩
      · exact hf
      · exact h.flat id' v' hv }

/-- A stage declares a varying that has its location. -/
theorem listVarying {id : NodeId} {v : VaryingEntry} (hv : s.varyings.get? id = some v)
    (hn : v.location.isSome) :
    { s with stages := s.stages.modify t fun b =>
      { b with varyings := appendNew b.varyings id } }.inputs.Numbered :=
  { h with
    groups := h.groups.same StageBuild.groups fun _ => rfl
    textures := h.textures.same StageBuild.textures fun _ => rfl
    storage := h.storage.same StageBuild.storage fun _ => rfl
    attributes := h.attributes.same StageBuild.attributes fun _ => rfl
    varyings := h.varyings.add StageBuild.varyings (fun _ => rfl) hv hn
    read := fun k a hk hn' => by
      refine PerStage.mem_modify StageBuild.attributes ?_ (h.read k a hk hn')
      exact fun _ hb => hb
    written := fun id' v' hv' hn' => PerStage.mem_modify StageBuild.varyings
      (fun _ hb => mem_appendNew.2 (.inl hb)) (h.written id' v' hv' hn') }

end InputTables.Numbered

end ShaderGraph
