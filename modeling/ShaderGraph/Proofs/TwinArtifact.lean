import ShaderGraph.Proofs.NumberingBuild
import ShaderGraph.Proofs.TwinPlan

/-!
# Layouts

`Artifact.layout` is what an artifact says to the program that feeds it: kinds, numbers, types, places,
sizes and updates of its inputs, without the names that the build made up and without the code. Builds
of one graph in two dialects have the same layout (`layouts_agree`), and builds of graphs that differ in
labels at most are the same (`build_twin`).
-/

namespace ShaderGraph

variable {α β : Type} {same : Prop}

/-! ### What is left of an artifact -/

/-- A uniform block without the names of the block and its members. -/
def UniformBlock.layout {τ : Type} (u : UniformBlock τ) : UniformBlock τ :=
  ⟨"", "", u.binding, u.members.map fun m => ("", m.2)⟩

def TextureDecl.layout (t : TextureDecl) : TextureDecl := { t with name := "", sampler := "" }

def StorageDecl.layout {τ : Type} (b : StorageDecl τ) : StorageDecl τ :=
  { b with name := "", block := "" }

def LocationDecl.layout {τ : Type} (l : LocationDecl τ) : LocationDecl τ := { l with name := "" }

/-- The declarations of a program without the names that the build made up. -/
def Program.layout (p : Program) : Program :=
  { p with
    uniforms := p.uniforms.map UniformBlock.layout
    textures := p.textures.map TextureDecl.layout
    storage := p.storage.map StorageDecl.layout
    attributes := p.attributes.map LocationDecl.layout
    varyings := p.varyings.map LocationDecl.layout
    functions := p.functions.map fun _ => ""
    locals := []
    body := []
    output := none }

def AttributeInput.layout (a : AttributeInput) : AttributeInput := { a with name := "" }

def VaryingLink.layout (v : VaryingLink) : VaryingLink := { v with name := "" }

def NativeCode.layout (c : NativeCode) : NativeCode := { c with name := "", code := "" }

def Layout.Slot.layout (s : Layout.Slot) : Layout.Slot := { s with name := "" }

def Layout.Placed.layout (m : Layout.Placed) : Layout.Placed := { m with name := "" }

/-- A resource without the names that the build made up. -/
def Resource.layout : Resource → Resource
  | .uniformBuffer b =>
    .uniformBuffer { b with block := "", members := b.members.map Layout.Placed.layout }
  | .texture _ binding visibility => .texture "" binding visibility
  | .sampler _ binding visibility => .sampler "" binding visibility
  | .storageBuffer _ binding element count readOnly visibility =>
    .storageBuffer "" binding element count readOnly visibility

/-- An artifact without its dialect, the names that the build made up and the code. -/
def Artifact.layout (a : Artifact) : Artifact :=
  { a with
    dialect := .wgsl
    programs := a.programs.map Program.layout
    attributes := a.attributes.map AttributeInput.layout
    bindings := a.bindings.map Resource.layout
    varyings := a.varyings.map VaryingLink.layout
    codes := a.codes.map NativeCode.layout }

theorem UniformBlock.binding_layout {τ : Type} (u : UniformBlock τ) :
    u.layout.binding = u.binding := rfl

theorem TextureDecl.textureBinding_layout (t : TextureDecl) :
    t.layout.textureBinding = t.textureBinding := rfl

theorem StorageDecl.binding_layout {τ : Type} (b : StorageDecl τ) :
    b.layout.binding = b.binding := rfl

theorem LocationDecl.location_layout {τ : Type} (l : LocationDecl τ) :
    l.layout.location = l.location := rfl

theorem AttributeInput.location_layout (a : AttributeInput) : a.layout.location = a.location := rfl

theorem VaryingLink.location_layout (v : VaryingLink) : v.layout.location = v.location := rfl

theorem Resource.binding_layout (r : Resource) : r.layout.binding = r.binding := by
  cases r <;> rfl

/-! ### Sorted lists -/

theorem map_insertBy {number : α → Nat} {number' : β → Nat} (f : α → β)
    (h : ∀ a, number' (f a) = number a) (a : α) (items : List α) :
    (insertBy (fun a b => number a < number b) a items).map f =
      insertBy (fun a b => number' a < number' b) (f a) (items.map f) := by
  induction items with
  | nil => rfl
  | cons b rest ih =>
    simp only [insertBy, List.map_cons, h]
    split
    · rfl
    · rw [List.map_cons, ih]

/-- What keeps the numbers can be done before or after sorting. -/
theorem map_sortByNumber {number : α → Nat} {number' : β → Nat} (f : α → β)
    (h : ∀ a, number' (f a) = number a) (items : List α) :
    (sortByNumber number items).map f = sortByNumber number' (items.map f) := by
  unfold sortByNumber sortBy
  suffices ∀ sorted : List α,
      (items.foldl (fun sorted a => insertBy (fun a b => number a < number b) a sorted)
        sorted).map f =
        (items.map f).foldl (fun sorted a => insertBy (fun a b => number' a < number' b) a sorted)
          (sorted.map f) from this []
  intro sorted
  induction items generalizing sorted with
  | nil => rfl
  | cons a rest ih => rw [List.foldl_cons, ih, map_insertBy f h, List.map_cons, List.foldl_cons]

/-! ### Tables of one shape -/

namespace OrderedMap

variable {κ γ : Type} {F : α → γ} {m m' : OrderedMap κ α}

theorem forall₂_entries (h : m.map F = m'.map F) :
    List.Forall₂ (fun e e' => e.1 = e'.1 ∧ F e.2 = F e'.2) m.entries m'.entries := by
  have entries : m.entries.map (fun e => (e.1, F e.2)) = m'.entries.map fun e => (e.1, F e.2) :=
    congrArg OrderedMap.entries h
  obtain ⟨es⟩ := m
  obtain ⟨es'⟩ := m'
  dsimp only at entries ⊢
  induction es generalizing es' with
  | nil =>
    cases es' with
    | nil => exact .nil
    | cons e' rest' => cases entries
  | cons e rest ih =>
    cases es' with
    | nil => cases entries
    | cons e' rest' =>
      obtain ⟨first, others⟩ := List.cons.inj entries
      exact .cons (Prod.mk.inj first) (ih rest' (congrArg OrderedMap.mk others) others)

/-- What is made of the entries one by one, where it depends on the shape of a value only. -/
theorem flatMap_congr (h : m.map F = m'.map F) {f f' : κ × α → List β}
    (hf : ∀ k a a', F a = F a' → f (k, a) = f' (k, a')) :
    m.entries.flatMap f = m'.entries.flatMap f' := by
  obtain ⟨es⟩ := m
  obtain ⟨es'⟩ := m'
  have entries : List.Forall₂ _ es es' := forall₂_entries h
  dsimp only
  clear h
  induction entries with
  | nil => rfl
  | @cons e e' rest rest' first _ ih =>
    obtain ⟨k, a⟩ := e
    obtain ⟨k', a'⟩ := e'
    obtain ⟨rfl, value⟩ := first
    rw [List.flatMap_cons, List.flatMap_cons, ih, hf k a a' value]

theorem filterMap_congr (h : m.map F = m'.map F) {f f' : κ × α → Option β}
    (hf : ∀ k a a', F a = F a' → f (k, a) = f' (k, a')) :
    m.entries.filterMap f = m'.entries.filterMap f' := by
  rw [List.filterMap_eq_flatMap_toList, List.filterMap_eq_flatMap_toList]
  exact flatMap_congr h fun k a a' value => by rw [hf k a a' value]

theorem filterMap_values (h : m.map F = m'.map F) {f f' : α → Option β}
    (hf : ∀ a a', F a = F a' → f a = f' a') : m.values.filterMap f = m'.values.filterMap f' := by
  rw [values, values, List.filterMap_map, List.filterMap_map]
  exact filterMap_congr h fun _ a a' => hf a a'

theorem get?_congr [DecidableEq κ] (h : m.map F = m'.map F) {f f' : α → β}
    (hf : ∀ a a', F a = F a' → f a = f' a')
    (k : κ) : (m.get? k).map f = (m'.get? k).map f' := by
  rcases found (.of_shape h) k with ⟨hn, hn'⟩ | ⟨a, a', ha, ha', alike⟩
  · rw [hn, hn']
    rfl
  · rw [ha, ha']
    exact congrArg some (hf a a' alike.shape)

end OrderedMap

/-! ### Resources -/

theorem Layout.placeFrom_layout (offset : Nat) (slots : List Slot) :
    placeFrom offset (slots.map Slot.layout) =
      ((placeFrom offset slots).1.map Placed.layout, (placeFrom offset slots).2) := by
  induction slots generalizing offset with
  | nil => rfl
  | cons s rest ih =>
    simp only [List.map_cons, placeFrom, ih]
    rfl

theorem Layout.layOut_layout (slots : List Slot) :
    layOut (slots.map Slot.layout) = ((layOut slots).1.map Placed.layout, (layOut slots).2) := by
  rw [layOut, layOut, placeFrom_layout]

namespace BuildState

variable {s s' : BuildState} {active : List Stage}

theorem visibility_shape (h : s.shape = s'.shape) {used : StageBuild → Bool}
    (hu : ∀ b, used b.shape = used b) : s.visibility active used = s'.visibility active used := by
  have stages : ∀ t, used (s.stages.get t) = used (s'.stages.get t) := fun t => by
    rw [← hu (s.stages.get t), ← hu (s'.stages.get t)]
    exact congrArg used (congrFun (congrArg Shape.stages h) t)
  simp only [visibility, stages]

theorem slots_layout (h : s.shape = s'.shape) (group : String) :
    (s.slots group).map Layout.Slot.layout = (s'.slots group).map Layout.Slot.layout := by
  have slots : ∀ s : BuildState, (s.slots group).map Layout.Slot.layout =
      (s.shape.uniforms.entries.filter fun u => u.1.group = group).map fun u =>
        ⟨u.2.member, u.2.type, u.2.value⟩ := by
    intro s
    simp only [BuildState.slots, shape, OrderedMap.map, List.filter_map, List.map_map]
    rfl
  rw [slots, slots, h]

theorem uniformBuffer?_layout (h : s.shape = s'.shape) (group : String) {g g' : GroupEntry}
    (hg : g.shape = g'.shape) : (s.uniformBuffer? active group g).map Resource.layout =
      (s'.uniformBuffer? active group g').map Resource.layout := by
  have binding : g.binding = g'.binding := (congrArg GroupEntry.binding hg :)
  have cadence : g.cadence = g'.cadence := (congrArg GroupEntry.cadence hg :)
  have placed :
      ((Layout.layOut (s.slots group)).1.map Layout.Placed.layout,
        (Layout.layOut (s.slots group)).2) =
      ((Layout.layOut (s'.slots group)).1.map Layout.Placed.layout,
        (Layout.layOut (s'.slots group)).2) := by
    rw [← Layout.layOut_layout, ← Layout.layOut_layout, slots_layout h]
  obtain ⟨members, size⟩ := Prod.mk.inj placed
  have visible : s.visibility active (fun b => b.groups.contains group) =
      s'.visibility active fun b => b.groups.contains group := visibility_shape h fun _ => rfl
  simp only [uniformBuffer?, Option.map_map, Function.comp_def, Resource.layout, binding,
    cadence, members,
    size, visible]

theorem textureResources_layout (h : s.shape = s'.shape) (name : String) {t t' : TextureEntry}
    (ht : t.shape = t'.shape) : (s.textureResources active name t).map Resource.layout =
      (s'.textureResources active name t').map Resource.layout := by
  have binding : t.binding = t'.binding := (congrArg TextureEntry.binding ht :)
  have visible : s.visibility active (fun b => b.textures.contains name) =
      s'.visibility active fun b => b.textures.contains name := visibility_shape h fun _ => rfl
  simp only [textureResources, binding, visible]
  split <;> rfl

theorem storageResource?_layout (h : s.shape = s'.shape) (name : String) {b b' : StorageEntry}
    (hb : b.shape = b'.shape) : (s.storageResource? active name b).map Resource.layout =
      (s'.storageResource? active name b').map Resource.layout := by
  have binding : b.binding = b'.binding := (congrArg StorageEntry.binding hb :)
  have element : b.element = b'.element := (congrArg StorageEntry.element hb :)
  have count : b.count = b'.count := (congrArg StorageEntry.count hb :)
  have access : b.access = b'.access := (congrArg StorageEntry.access hb :)
  have visible : s.visibility active (fun h => h.storage.contains name) =
      s'.visibility active fun h => h.storage.contains name := visibility_shape h fun _ => rfl
  simp only [storageResource?, Option.map_map, Function.comp_def, Resource.layout, binding,
    element, count,
    access, visible]

theorem resources_layout (h : s.shape = s'.shape) :
    (s.resources active).map Resource.layout = (s'.resources active).map Resource.layout := by
  rw [resources, resources, map_sortByNumber _ Resource.binding_layout,
    map_sortByNumber _ Resource.binding_layout]
  congr 1
  simp only [List.map_append, List.map_filterMap, List.map_flatMap]
  congr 1
  · congr 1
    · exact OrderedMap.filterMap_congr (congrArg Shape.groups h) fun k _ _ hg =>
        uniformBuffer?_layout h k hg
    · exact OrderedMap.flatMap_congr (congrArg Shape.textures h) fun k _ _ ht =>
        textureResources_layout h k ht
  · exact OrderedMap.filterMap_congr (congrArg Shape.storage h) fun k _ _ hb =>
      storageResource?_layout h k hb

theorem uniformInputs_shape (h : s.shape = s'.shape) : s.uniformInputs = s'.uniformInputs := by
  refine OrderedMap.filterMap_congr (congrArg Shape.uniforms h) fun key u u' hu => ?_
  have groups : Alike False (OrderedMap.map GroupEntry.shape) s.groups s'.groups :=
    ⟨congrArg Shape.groups h, False.elim⟩
  have bound : (s.groups.get? key.group).bind GroupEntry.binding =
      (s'.groups.get? key.group).bind GroupEntry.binding := by
    rcases OrderedMap.found groups key.group with ⟨hn, hn'⟩ | ⟨g, g', hg, hg', alike⟩
    · rw [hn, hn']
    · rw [hg, hg']
      exact (congrArg GroupEntry.binding alike.shape :)
  have type : u.type = u'.type := (congrArg UniformEntry.type hu :)
  have update : u.update = u'.update := (congrArg UniformEntry.update hu :)
  have value : u.value = u'.value := (congrArg UniformEntry.value hu :)
  have node : u.node = u'.node := (congrArg UniformEntry.node hu :)
  simp only [bound, type, update, value, node]

theorem attributeInputs_layout (h : s.shape = s'.shape) :
    s.attributeInputs.map AttributeInput.layout = s'.attributeInputs.map AttributeInput.layout := by
  rw [attributeInputs, attributeInputs, map_sortByNumber _ AttributeInput.location_layout,
    map_sortByNumber _ AttributeInput.location_layout, List.map_filterMap, List.map_filterMap]
  congr 1
  refine OrderedMap.filterMap_values (congrArg Shape.attributes h) fun a a' ha => ?_
  have type : a.type = a'.type := (congrArg AttributeEntry.type ha :)
  have location : a.location = a'.location := (congrArg AttributeEntry.location ha :)
  simp only [Option.map_map, Function.comp_def, AttributeInput.layout, type, location]

theorem varyingLinks_layout (h : s.shape = s'.shape) :
    s.varyingLinks.map VaryingLink.layout = s'.varyingLinks.map VaryingLink.layout := by
  rw [varyingLinks, varyingLinks, map_sortByNumber _ VaryingLink.location_layout,
    map_sortByNumber _ VaryingLink.location_layout, List.map_filterMap, List.map_filterMap]
  congr 1
  refine OrderedMap.filterMap_values (congrArg Shape.varyings h) fun v v' hv => ?_
  have type : v.type = v'.type := (congrArg VaryingEntry.type hv :)
  have location : v.location = v'.location := (congrArg VaryingEntry.location hv :)
  have interpolation : v.interpolation = v'.interpolation :=
    (congrArg VaryingEntry.interpolation hv :)
  have sampling : v.sampling = v'.sampling := (congrArg VaryingEntry.sampling hv :)
  simp only [Option.map_map, Function.comp_def, VaryingLink.layout, type, location,
    interpolation, sampling]

theorem nativeCodes_layout (h : s.shape = s'.shape) :
    (s.nativeCodes active).map NativeCode.layout =
      (s'.nativeCodes active).map NativeCode.layout := by
  have visible : ∀ id, s.visibility active (fun b => b.functions.contains id) =
      s'.visibility active fun b => b.functions.contains id :=
        fun _ => visibility_shape h fun _ => rfl
  rw [nativeCodes, nativeCodes, List.map_filterMap, List.map_filterMap]
  refine OrderedMap.filterMap_congr (congrArg Shape.functions h) fun id f f' _ => ?_
  simp only [visible]
  split <;> rfl

/-! ### Programs -/

variable {p p' : Plan}

/-- A dialect may have no spelling for a member. -/
theorem structDecl_twin (h : p.Twin same p') (name : String) :
    Agrees same Eq (structDecl p name) (structDecl p' name) := by
  unfold structDecl
  rw [h.structs]
  split
  · trivial
  · by_cases hs : same
    · rw [h.options.dialect hs]
      exact .refl fun _ _ => rfl
    · split
      · exact .right hs
      · split
        · exact hs
        · rfl

theorem structDecls_twin (h : p.Twin same p') (names : List String) :
    Agrees same Eq (names.mapM (structDecl p)) (names.mapM (structDecl p')) :=
  (Agrees.mapM (structDecl_twin h) names).imp fun _ _ h => List.forall₂_eq_eq_eq ▸ h

theorem stageProgram_eq (h : p.Twin same p') (hs : same) (t : Stage) :
    s.stageProgram p t = s.stageProgram p' t := by
  have decls : structDecl p = structDecl p' := by
    funext name
    rw [structDecl, structDecl, h.structs, h.options.dialect hs]
  have faults : storageFault? p = storageFault? p' := by
    funext decls
    rw [storageFault?, storageFault?, h.options.dialect hs]
  simp only [stageProgram, decls, faults, h.options.workgroup]

theorem declarations_layout {κ : Type} {decl decl' : κ → Option β} {F : β → β} (keys : List κ)
    (h : ∀ k, (decl k).map F = (decl' k).map F) :
    (keys.filterMap decl).map F = (keys.filterMap decl').map F := by
  rw [List.map_filterMap, List.map_filterMap]
  simp only [h]

theorem uniformBlock?_layout (h : s.shape = s'.shape) (group : String) :
    (s.uniformBlock? group).map UniformBlock.layout =
    (s'.uniformBlock? group).map UniformBlock.layout := by
  rw [uniformBlock?, uniformBlock?, Option.map_map, Option.map_map]
  refine OrderedMap.get?_congr (congrArg Shape.groups h) (fun g g' hg => ?_) group
  have binding : g.binding = g'.binding := (congrArg GroupEntry.binding hg :)
  have members : g.members.map (fun m => ("", m.2)) = g'.members.map fun m => ("", m.2) :=
    (congrArg GroupEntry.members hg :)
  simp only [Function.comp_apply, UniformBlock.layout, binding, members]

theorem textureDecl?_layout (h : s.shape = s'.shape) (name : String) :
    (s.textureDecl? name).map TextureDecl.layout =
    (s'.textureDecl? name).map TextureDecl.layout := by
  rw [textureDecl?, textureDecl?, Option.map_map, Option.map_map]
  refine OrderedMap.get?_congr (congrArg Shape.textures h) (fun t t' ht => ?_) name
  have binding : t.binding = t'.binding := (congrArg TextureEntry.binding ht :)
  simp only [Function.comp_apply, TextureDecl.layout, binding]

theorem storageDecl?_layout (h : s.shape = s'.shape) (name : String) :
    (s.storageDecl? name).map StorageDecl.layout =
    (s'.storageDecl? name).map StorageDecl.layout := by
  rw [storageDecl?, storageDecl?, Option.map_map, Option.map_map]
  refine OrderedMap.get?_congr (congrArg Shape.storage h) (fun b b' hb => ?_) name
  have binding : b.binding = b'.binding := (congrArg StorageEntry.binding hb :)
  have element : b.element = b'.element := (congrArg StorageEntry.element hb :)
  have count : b.count = b'.count := (congrArg StorageEntry.count hb :)
  have access : b.access = b'.access := (congrArg StorageEntry.access hb :)
  simp only [Function.comp_apply, StorageDecl.layout, binding, element, count, access]

theorem attributeDecl?_layout (h : s.shape = s'.shape) (name : String) :
    (s.attributeDecl? name).map LocationDecl.layout =
    (s'.attributeDecl? name).map LocationDecl.layout := by
  rw [attributeDecl?, attributeDecl?, Option.map_map, Option.map_map]
  refine OrderedMap.get?_congr (congrArg Shape.attributes h) (fun a a' ha => ?_) name
  have type : a.type = a'.type := (congrArg AttributeEntry.type ha :)
  have location : a.location = a'.location := (congrArg AttributeEntry.location ha :)
  simp only [Function.comp_apply, LocationDecl.layout, type, location]

theorem varyingDecl?_layout (h : s.shape = s'.shape) (id : NodeId) :
    (s.varyingDecl? id).map LocationDecl.layout = (s'.varyingDecl? id).map LocationDecl.layout := by
  rw [varyingDecl?, varyingDecl?, Option.map_map, Option.map_map]
  refine OrderedMap.get?_congr (congrArg Shape.varyings h) (fun v v' hv => ?_) id
  have type : v.type = v'.type := (congrArg VaryingEntry.type hv :)
  have location : v.location = v'.location := (congrArg VaryingEntry.location hv :)
  have interpolation : v.interpolation = v'.interpolation :=
    (congrArg VaryingEntry.interpolation hv :)
  have sampling : v.sampling = v'.sampling := (congrArg VaryingEntry.sampling hv :)
  simp only [Function.comp_apply, LocationDecl.layout, type, location, interpolation, sampling]

/-- As many functions are declared. -/
theorem functionCodes_layout (h : s.shape = s'.shape) (ids : List FunctionId) :
    (ids.filterMap fun id => (s.functions.get? id).map FunctionEntry.code).map (fun _ => "") =
      (ids.filterMap fun id => (s'.functions.get? id).map FunctionEntry.code).map fun _ => "" := by
  refine declarations_layout ids fun id => ?_
  rw [Option.map_map, Option.map_map]
  exact OrderedMap.get?_congr (congrArg Shape.functions h) (fun _ _ _ => rfl) id

/-- A dialect may have no spelling for what a storage buffer holds. -/
theorem stageProgram_twin (h : Alike same BuildState.shape s s') (hp : p.Twin same p') (t : Stage) :
    Agrees same (Alike same Program.layout) (s.stageProgram p t) (s'.stageProgram p' t) := by
  by_cases hs : same
  · rw [h.eq hs, stageProgram_eq hp hs]
    exact .refl fun _ _ => .refl _ _
  have stage : (s.stages.get t).shape = (s'.stages.get t).shape :=
    congrFun (congrArg Shape.stages h.shape) t
  unfold stageProgram
  dsimp only
  rw [show (s.stages.get t).structs = (s'.stages.get t).structs from
    (congrArg StageBuild.structs stage :)]
  refine (structDecls_twin hp _).bind fun structs structs' hstructs => ?_
  subst hstructs
  split
  · exact .right hs
  split
  · exact .left hs
  refine ⟨?_, fun h => absurd h hs⟩
  simp only [Program.layout, map_sortByNumber _ UniformBlock.binding_layout,
    map_sortByNumber _ TextureDecl.textureBinding_layout, map_sortByNumber _ StorageDecl.binding_layout,
    map_sortByNumber _ LocationDecl.location_layout]
  rw [show (s.stages.get t).groups = (s'.stages.get t).groups from
    (congrArg StageBuild.groups stage :),
    show (s.stages.get t).textures = (s'.stages.get t).textures from
      (congrArg StageBuild.textures stage :),
    show (s.stages.get t).storage = (s'.stages.get t).storage from
      (congrArg StageBuild.storage stage :),
    show (s.stages.get t).attributes = (s'.stages.get t).attributes from
      (congrArg StageBuild.attributes stage :),
    show (s.stages.get t).varyings = (s'.stages.get t).varyings from
      (congrArg StageBuild.varyings stage :),
    show (s.stages.get t).builtins = (s'.stages.get t).builtins from
      (congrArg StageBuild.builtins stage :),
    show (s.stages.get t).functions = (s'.stages.get t).functions from
      (congrArg StageBuild.functions stage :),
    declarations_layout _ (uniformBlock?_layout h.shape),
    declarations_layout _ (textureDecl?_layout h.shape),
    declarations_layout _ (storageDecl?_layout h.shape),
    declarations_layout _ (attributeDecl?_layout h.shape),
    declarations_layout _ (varyingDecl?_layout h.shape), functionCodes_layout h.shape,
    hp.options.workgroup]

/-- The host may refuse a program. -/
theorem checkedProgram_twin (h : Alike same BuildState.shape s s') (hp : p.Twin same p') (t : Stage) :
    Agrees same (Alike same Program.layout) (s.checkedProgram p t) (s'.checkedProgram p' t) := by
  by_cases hs : same
  · rw [h.eq hs, checkedProgram, checkedProgram, stageProgram_eq hp hs, hp.host,
      hp.options.dialect hs, hp.options.validate]
    exact .refl fun _ _ => .refl _ _
  unfold checkedProgram
  rcases (stageProgram_twin h hp t).cases with ⟨q, q', hq, hq', alike⟩ | ⟨e, e', he, he'⟩ |
    ⟨-, q, e', -, he'⟩ | ⟨-, e, q', he, -⟩
  · rw [hq, hq']
    dsimp only
    split
    · split
      · split
        · split
          · exact alike
          · exact .left hs
        · exact alike
      · exact .right hs
    · split
      · split
        · exact alike
        · exact .left hs
      · exact alike
  · rw [he, he']
    trivial
  · rw [he']
    exact .left hs
  · rw [he]
    exact .right hs

/-- States of one shape make artifacts of one layout. -/
theorem artifact_twin (h : Alike same BuildState.shape s s') (hp : p.Twin same p')
    (active : List Stage) :
    Agrees same (Alike same Artifact.layout) (s.artifact p active) (s'.artifact p' active) := by
  refine (Agrees.mapM (checkedProgram_twin h hp) active).bind fun programs programs' hprograms => ?_
  have layouts : programs.map Program.layout = programs'.map Program.layout := by
    induction hprograms with
    | nil => rfl
    | cons first _ ih => rw [List.map_cons, List.map_cons, ih, first.shape]
  have equal : same → programs = programs' := Made.of_forall₂ (hprograms.imp fun _ _ h => h.eq)
  refine ⟨?_, fun hs => ?_⟩
  · have updates : s.updates = s'.updates := congrArg Shape.updates h.shape
    simp only [Artifact.layout, layouts, attributeInputs_layout h.shape, resources_layout h.shape,
      uniformInputs_shape h.shape, varyingLinks_layout h.shape, nativeCodes_layout h.shape, updates,
      hp.updatesBefore]
  · rw [equal hs, h.eq hs, hp.options.dialect hs, hp.updatesBefore]

end BuildState

/-! ### Builds -/

theorem BuildState.start_twin {p p' : Plan} (h : p.Twin same p') :
    Alike same BuildState.shape (BuildState.start p) (BuildState.start p') := by
  refine ⟨?_, fun hs => ?_⟩
  · simp only [start, shape, h.updates]
  · rw [start, start, Plan.takenNames, Plan.takenNames, h.structs, h.options.dialect hs, h.updates]

theorem Env.root_twin {p p' : Plan} (h : p.Twin same p') (active : List Stage) (t : Stage) :
    Env.Twin same (Env.root p active t) (Env.root p' active t) where
  plan := h
  active := rfl
  stage := rfl
  scope := rfl
  frames := rfl
  loops := .refl _ _
  path := rfl
  typing := rfl

namespace Build

theorem atRoots_cons (p : Plan) (active : List Stage) (step : NodeId → Build Unit) (t : Stage)
    (root : NodeId) (rest : List (Stage × NodeId)) (s : BuildState) :
    atRoots p active step ((t, root) :: rest) s =
      step root (Env.root p active t) s >>= fun r => atRoots p active step rest r.2 := by
  rw [atRoots, atRoot]
  cases step root (Env.root p active t) s <;> rfl

theorem run_eq (p : Plan) (roots : List (Stage × NodeId)) :
    run p roots = atRoots p (roots.map Prod.fst) analyze roots (BuildState.start p) >>=
      atRoots p (roots.map Prod.fst) generateStage roots := by
  unfold run
  dsimp only
  cases atRoots p (roots.map Prod.fst) analyze roots (BuildState.start p) <;> rfl

theorem atRoots_twin {p p' : Plan} (h : p.Twin same p') (active : List Stage)
    {step : NodeId → Build Unit}
    (hstep : ∀ {e e' : Env}, e.Twin same e' →
      ∀ id, Twins same e e' (fun _ _ => True) (step id) (step id))
    (roots : List (Stage × NodeId)) {s s' : BuildState} (hs : Alike same BuildState.shape s s') :
    Agrees same (Alike same BuildState.shape) (atRoots p active step roots s)
      (atRoots p' active step roots s') := by
  induction roots generalizing s s' with
  | nil => exact hs
  | cons r rest ih =>
    rw [atRoots_cons, atRoots_cons]
    exact (hstep (Env.root_twin h active r.1) r.2 s s' hs).bind fun _ _ hr => ih hr.2

theorem run_twin {p p' : Plan} (h : p.Twin same p') (roots : List (Stage × NodeId)) :
    Agrees same (Alike same BuildState.shape) (run p roots) (run p' roots) := by
  rw [run_eq, run_eq]
  refine (atRoots_twin h _ (fun he id => Twins.analyze he id) roots
    (BuildState.start_twin h)).bind ?_
  exact fun s s' hs => atRoots_twin h _ (fun he id => Twins.generateStage he id) roots hs

end Build

theorem build_eq (g : Graph) (request : BuildRequest) (o : BuildOptions) (host : Host)
    (h : request.roots.isEmpty = false) :
    build g request o host = (do
      let p ← (Plan.make g o (request.roots.map Prod.snd) host).mapError .refused
      let s ← Build.run p request.roots
      (s.artifact p (request.roots.map Prod.fst)).mapError .refused) := by
  unfold build
  dsimp only
  rw [h, if_neg Bool.false_ne_true]
  cases Plan.make g o (request.roots.map Prod.snd) host with
  | error e => rfl
  | ok p =>
    dsimp only [Except.mapError, Bind.bind, Except.bind]
    cases Build.run p request.roots with
    | error f => rfl
    | ok s =>
      dsimp only
      cases s.artifact p (request.roots.map Prod.fst) <;> rfl

/-- Builds of graphs that differ in labels at most, with options that differ in the order of attributes
and perhaps in the dialect, have the same layout; in one dialect they are the same. Where the graphs are
two, the setup of the host ignores labels. -/
theorem build_twin {g g' : Graph} {o o' : BuildOptions} (hg : g.Twin g') (ho : o.Twin same o')
    (request : BuildRequest) (host : Host) (labels : g = g' ∨ host.setup.IgnoresLabels) :
    Agrees same (Alike same Artifact.layout) (build g request o host)
      (build g' request o' host) := by
  cases empty : request.roots.isEmpty with
  | true =>
    unfold build
    dsimp only
    rw [empty]
    trivial
  | false =>
    rw [build_eq g request o host empty, build_eq g' request o' host empty]
    refine ((Plan.make_twin hg ho _ labels).mapError _ _).bind fun p p' hp => ?_
    refine (Build.run_twin hp request.roots).bind fun s s' hs => ?_
    exact (BuildState.artifact_twin hs hp _).mapError _ _

/-- What a renderer feeds to the programs of a graph does not depend on the dialect that they are
written in. -/
theorem layouts_agree {g : Graph} {request : BuildRequest} {options : BuildOptions} {host : Host}
    {a a' : Artifact}
    (h : build g request { options with dialect := .glsl } host = .ok a)
    (h' : build g request { options with dialect := .wgsl } host = .ok a') :
    a.layout = a'.layout := by
  have dialects : BuildOptions.Twin False
      { options with dialect := .glsl } { options with dialect := .wgsl } :=
    ⟨False.elim, (nomatch ·), fun _ => rfl, rfl, rfl, rfl⟩
  have twins := build_twin (.refl g) dialects request host (.inl rfl)
  rw [h, h'] at twins
  exact twins.shape

/-- The uniform of `textured` under a name that is a word of one dialect. -/
def selected : Graph := .ofNodes
  [.meshAttribute "uv" none, .varying ⟨0⟩ none .perspective none, .texture "albedo" ⟨1⟩ none,
    .uniform "select" .vec4 none .frame [1], .operator .mul ⟨2⟩ ⟨3⟩, .const .vec4 [0]]

/-- The members of the uniform buffers of an artifact by name. -/
def Artifact.memberNames (a : Artifact) : List String :=
  a.bindings.flatMap fun
    | .uniformBuffer b => b.members.map fun m => m.name
    | _ => []

/-- The programs of `selected` use different names for the uniform and agree on where it is. -/
theorem selected_layouts : ∃ a a',
    build selected ⟨some ⟨5⟩, some ⟨4⟩, none⟩
      { BuildOptions.standard with dialect := .glsl } = .ok a ∧
      build selected ⟨some ⟨5⟩, some ⟨4⟩, none⟩
        { BuildOptions.standard with dialect := .wgsl } = .ok a' ∧
      a.memberNames = ["select"] ∧ a'.memberNames ≠ ["select"] ∧ a.layout = a'.layout := by
  have glsl : achieves (fun a => a.memberNames = ["select"])
      (build selected ⟨some ⟨5⟩, some ⟨4⟩, none⟩
        { BuildOptions.standard with dialect := .glsl }) = true := by
    decide +kernel
  have wgsl : achieves (fun a => a.memberNames ≠ ["select"])
      (build selected ⟨some ⟨5⟩, some ⟨4⟩, none⟩
        { BuildOptions.standard with dialect := .wgsl }) = true := by
    decide +kernel
  obtain ⟨a, ha, names⟩ := of_achieves glsl
  obtain ⟨a', ha', names'⟩ := of_achieves wgsl
  exact ⟨a, a', ha, ha', of_decide_eq_true names, of_decide_eq_true names', layouts_agree ha ha'⟩

end ShaderGraph
