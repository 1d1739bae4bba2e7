import ShaderGraph.Proofs.Twins

/-!
# Twin inputs

The inputs, structs and native functions of twin builds: the same entries come into the tables, under
names that may differ, and get the same numbers.
-/

namespace ShaderGraph

namespace BuildState

variable (s : BuildState)

theorem shape_putUniform (key : UniformKey) (u : UniformEntry) :
    BuildState.shape { s with uniforms := s.uniforms.put key u } =
      { s.shape with uniforms := s.shape.uniforms.put key u.shape } := by
  simp [shape]

theorem shape_putGroup (group : String) (g : GroupEntry) :
    BuildState.shape { s with groups := s.groups.put group g } =
      { s.shape with groups := s.shape.groups.put group g.shape } := by
  simp [shape]

theorem shape_putTexture (name : String) (t : TextureEntry) :
    BuildState.shape { s with textures := s.textures.put name t } =
      { s.shape with textures := s.shape.textures.put name t.shape } := by
  simp [shape]

theorem shape_putStorage (name : String) (b : StorageEntry) :
    BuildState.shape { s with storage := s.storage.put name b } =
      { s.shape with storage := s.shape.storage.put name b.shape } := by
  simp [shape]

theorem shape_putAttribute (name : String) (a : AttributeEntry) :
    BuildState.shape { s with attributes := s.attributes.put name a } =
      { s.shape with attributes := s.shape.attributes.put name a.shape } := by
  simp [shape]

theorem shape_locateAttribute (name : String) (a : AttributeEntry) (n : Nat) :
    BuildState.shape { s with attributes := s.attributes.put name a, nextAttribute := n } =
      { s.shape with attributes := s.shape.attributes.put name a.shape, nextAttribute := n } := by
  simp [shape]

theorem shape_putVarying (id : NodeId) (v : VaryingEntry) :
    BuildState.shape { s with varyings := s.varyings.put id v } =
      { s.shape with varyings := s.shape.varyings.put id v.shape } := by
  simp [shape]

theorem shape_locateVarying (id : NodeId) (v : VaryingEntry) (n : Nat) :
    BuildState.shape { s with varyings := s.varyings.put id v, nextVarying := n } =
      { s.shape with varyings := s.shape.varyings.put id v.shape, nextVarying := n } := by
  simp [shape]

theorem shape_putFunction (id : FunctionId) (f : FunctionEntry) :
    BuildState.shape { s with functions := s.functions.put id f } =
      { s.shape with functions := s.shape.functions.put id f.shape } := by
  simp [shape]

theorem shape_putType (key : NodeId × FrameId) (t : ValueType) :
    BuildState.shape { s with types := s.types.put key t } =
      { s.shape with types := s.shape.types.put key t } := rfl

theorem shape_cache {s s' : BuildState} (h : s.shape = s'.shape) {c c' : NodeCache}
    (hc : c.shape = c'.shape) :
    BuildState.shape { s with cache := c } = BuildState.shape { s' with cache := c' } := by
  show { s.shape with cache := c.shape } = ({ s'.shape with cache := c'.shape } : Shape)
  rw [h, hc]

theorem shape_putUpdate (id : NodeId) (r : UpdateRecord) :
    BuildState.shape { s with updates := s.updates.put id r } =
      { s.shape with updates := s.shape.updates.put id r } := rfl

end BuildState

theorem GroupEntry.shape_addMember (g : GroupEntry) (name : String) (type : ValueType) :
    GroupEntry.shape { g with members := g.members ++ [(name, type)] } =
      { g.shape with members := g.shape.members ++ [("", type)] } := by
  simp [shape]

namespace Build.Twins

variable {α β : Type} {same : Prop} {env env' : Env} {R : α → β → Prop}

/-! ### Structs and native functions -/

theorem markTypeIn (henv : env.Twin same env') (fuel : Nat) (t : ValueType) :
    Twins same env env' (fun _ _ => True) (Build.markTypeIn fuel t) (Build.markTypeIn fuel t) := by
  induction fuel generalizing t with
  | zero => exact .exhaust
  | succ fuel ih =>
    cases t with
    | struct name =>
      refine (here henv).bind fun b b' hb => ?_
      have structs : b.structs = b'.structs := (congrArg StageBuild.structs hb.shape :)
      refine .ite (by rw [structs]) (fun _ => .pure trivial) fun _ => ?_
      refine (structMembers henv name).bind fun members members' hm => ?_
      subst hm
      exact (Twins.forIn fun m _ => ih m.type).bind fun _ _ _ => collect henv fun _ => by rfl
    | array element count => exact ih element
    | _ => exact .pure trivial

theorem structDepth (henv : env.Twin same env') :
    Build.structDepth env.plan = Build.structDepth env'.plan := by
  rw [Build.structDepth, Build.structDepth, henv.plan.structs]

theorem markType (henv : env.Twin same env') (t : ValueType) :
    Twins same env env' (fun _ _ => True) (Build.markType t) (Build.markType t) := by
  refine .read ?_
  rw [structDepth henv]
  exact markTypeIn henv _ t

/-- A dialect may have no spelling of a type. -/
theorem useType (henv : env.Twin same env') (t : ValueType) :
    Twins same env env' (fun _ _ => True) (Build.useType t) (Build.useType t) := by
  refine (markType henv t).bind fun _ _ _ => .read ?_
  show Twins same env env' _ _ _
  by_cases hs : same
  · rw [henv.plan.options.dialect hs]
    split
    · exact .fail
    · exact .pure trivial
  · split
    · exact .failLeft hs
    · split
      · exact .failRight hs
      · exact .pure trivial

/-- Writing a function takes names at most. -/
theorem emitFunction_shape {env : Env} (native : NativeFunction) (f : Native.Declaration)
    (claimed : String) (includes : List String) (s : BuildState) :
    Meets (Build.emitFunction native f claimed includes) env s (fun _ => True) fun _ s' =>
      s'.shape = s.shape := by
  unfold Build.emitFunction
  simp only [meets_bind, meets_dialect, meets_ite, meets_pure, meets_read, meets_ofExcept,
    meets_fail, implies_true, and_true, true_and]
  intro _ _
  split
  · exact fun _ => rfl
  · trivial

/-- A function may be refused in one dialect. -/
theorem emitFunction (henv : env.Twin same env') (native : NativeFunction)
    (f : Native.Declaration) {claimed claimed' : String} {includes includes' : List String}
    (hc : Made same claimed claimed') (hi : Made same includes includes') :
    Twins same env env' (Made same) (Build.emitFunction native f claimed includes)
      (Build.emitFunction native f claimed' includes') := by
  by_cases hs : same
  · rw [hc hs, hi hs]
    refine .read ?_
    show Twins same env env' _ (if native.dialect = env.plan.options.dialect then _ else _)
      (if native.dialect = env'.plan.options.dialect then _ else _)
    rw [henv.plan.options.dialect hs]
    refine .ite Iff.rfl (fun _ => .pure (.refl _)) fun _ => .ite Iff.rfl (fun _ => .read ?_) fun _ =>
      .fail
    rw [henv.plan.host]
    refine (Twins.ofExcept (Agrees.refl (R := Eq) fun _ _ => rfl)).bind fun e e' he => ?_
    subst he
    exact .when Iff.rfl (fun _ => .change (fun _ => rfl) fun _ _ h => h) (.pure (.refl _))
  · exact .unlike hs (emitFunction_shape native f claimed includes)
      (emitFunction_shape native f claimed' includes')

theorem functionEntry (henv : env.Twin same env') (native : NativeFunction)
    (f : Native.Declaration) {includes includes' : List String} (hi : Made same includes includes') :
    Twins same env env' (Alike same FunctionEntry.shape)
      (Build.functionEntry native f includes) (Build.functionEntry native f includes') := by
  refine (claimGlobal (.refl f.name)).bind fun claimed claimed' hc => ?_
  refine (emitFunction henv native f hc hi).bind fun emitted emitted' he => .pure ?_
  exact ⟨rfl, fun hs => by rw [hc hs, he hs]⟩

theorem registerFunctionIn (henv : env.Twin same env') (fuel : Nat) (path : List FunctionId)
    (id : FunctionId) :
    Twins same env env' (Alike same FunctionEntry.shape) (Build.registerFunctionIn fuel path id)
      (Build.registerFunctionIn fuel path id) := by
  induction fuel generalizing path id with
  | zero => exact .exhaust
  | succ fuel ih =>
    refine .get fun s s' h => ?_
    rcases OrderedMap.found (h.map BuildState.functions fun _ _ h => congrArg Shape.functions h) id
      with ⟨hn, hn'⟩ | ⟨entry, entry', he, he', alike⟩
    · simp only [hn, hn']
      refine .check Iff.rfl fun _ => .read ?_
      have graph : env.plan.graph.function? id = env'.plan.graph.function? id := by
        rw [Graph.function?, Graph.function?, henv.plan.graph.functions]
      rw [graph]
      split
      · exact .fail
      · next native _ =>
        refine (Twins.mapM fun i _ => ih (id :: path) i).bind fun included included' hi => ?_
        refine (Twins.ofExcept (Agrees.refl (R := Eq) fun _ _ => rfl)).bind fun f f' hf => ?_
        subst hf
        have sources : Made same (included.map FunctionEntry.source)
            (included'.map FunctionEntry.source) :=
          (Made.of_forall₂ (hi.imp fun _ _ h => h.eq)).map _
        refine (functionEntry henv native f sources).bind fun entry entry' he => ?_
        refine (Twins.change (fun hs => by rw [he.eq hs]) fun s s' h => ?_).bind fun _ _ _ =>
          .pure he
        rw [BuildState.shape_putFunction, BuildState.shape_putFunction, h, he.shape]
    · simp only [he, he']
      exact .pure alike

theorem registerFunction (henv : env.Twin same env') (id : FunctionId) :
    Twins same env env' (Alike same FunctionEntry.shape) (Build.registerFunction id)
      (Build.registerFunction id) := by
  refine .read ?_
  show Twins same env env' _ (Build.registerFunctionIn (env.plan.graph.functions.size + 2) [] id)
    (Build.registerFunctionIn (env'.plan.graph.functions.size + 2) [] id)
  rw [henv.plan.graph.functions]
  exact registerFunctionIn henv _ [] id

theorem useFunctionIn (henv : env.Twin same env') (fuel : Nat) (id : FunctionId) :
    Twins same env env' (fun _ _ => True) (Build.useFunctionIn fuel id)
      (Build.useFunctionIn fuel id) := by
  induction fuel generalizing id with
  | zero => exact .exhaust
  | succ fuel ih =>
    refine (registerFunction henv id).bind fun entry entry' he => ?_
    have includes : entry.includes = entry'.includes :=
      (congrArg FunctionEntry.includes he.shape :)
    have inputs : entry.inputs = entry'.inputs := (congrArg FunctionEntry.inputs he.shape :)
    have result : entry.result = entry'.result := (congrArg FunctionEntry.result he.shape :)
    rw [includes, inputs, result]
    refine (here henv).bind fun b b' hb => ?_
    have functions : b.functions = b'.functions := (congrArg StageBuild.functions hb.shape :)
    refine .ite (by rw [functions]) (fun _ => .pure trivial) fun _ => ?_
    refine (Twins.forIn fun i _ => ih i).bind fun _ _ _ => ?_
    refine (Twins.forIn fun p _ => markType henv p.valueType).bind fun _ _ _ => ?_
    exact (markType henv entry'.result).bind fun _ _ _ => collect henv fun _ => by rfl

theorem useFunction (henv : env.Twin same env') (id : FunctionId) :
    Twins same env env' (fun _ _ => True) (Build.useFunction id) (Build.useFunction id) := by
  refine .read ?_
  show Twins same env env' _ (Build.useFunctionIn (env.plan.graph.functions.size + 2) id)
    (Build.useFunctionIn (env'.plan.graph.functions.size + 2) id)
  rw [henv.plan.graph.functions]
  exact useFunctionIn henv _ id

/-! ### Uniforms -/

theorem putGroup {group : String} {g g' : GroupEntry} (h : Alike same GroupEntry.shape g g') :
    Twins same env env' (fun _ _ => True) (Build.putGroup group g) (Build.putGroup group g') := by
  refine .change (fun he => by rw [h.eq he]) fun s s' hs => ?_
  rw [BuildState.shape_putGroup, BuildState.shape_putGroup, hs, h.shape]

theorem groupEntry (group : String) :
    Twins same env env' (Alike same GroupEntry.shape) (Build.groupEntry group)
      (Build.groupEntry group) := by
  refine .get fun s s' h => ?_
  rcases OrderedMap.found (h.map BuildState.groups fun _ _ h => congrArg Shape.groups h) group with
    ⟨hn, hn'⟩ | ⟨g, g', hg, hg', alike⟩
  · simp only [hn, hn']
    refine (claimGlobal (.refl _)).bind fun block block' hblock => ?_
    refine (claimGlobal (.refl _)).bind fun inst inst' hinst => ?_
    have alike : Alike same GroupEntry.shape (⟨block, inst, none, [], none⟩ : GroupEntry)
        ⟨block', inst', none, [], none⟩ := ⟨rfl, fun he => by rw [hblock he, hinst he]⟩
    exact (putGroup alike).bind fun _ _ _ => .pure alike
  · simp only [hg, hg']
    exact .pure alike

theorem uniformEntry (key : UniformKey) (type : ValueType) (update : Cadence) (value : List Float32)
    (id : NodeId) :
    Twins same env env' (Alike same UniformEntry.shape)
      (Build.uniformEntry key type update value id)
      (Build.uniformEntry key type update value id) := by
  refine .get fun s s' h => ?_
  rcases OrderedMap.found (h.map BuildState.uniforms fun _ _ h =>
    congrArg Shape.uniforms h) key with
    ⟨hn, hn'⟩ | ⟨u, u', hu, hu', alike⟩
  · simp only [hn, hn']
    refine (groupEntry key.group).bind fun g g' hg => ?_
    refine (claimGlobal (.refl _)).bind fun member member' hmember => ?_
    have grown : Alike same GroupEntry.shape { g with members := g.members ++ [(member, type)] }
        { g' with members := g'.members ++ [(member', type)] } := by
      refine ⟨?_, fun he => by rw [hg.eq he, hmember he]⟩
      rw [GroupEntry.shape_addMember, GroupEntry.shape_addMember, hg.shape]
    have alike : Alike same UniformEntry.shape (⟨member, type, update, value, id⟩ : UniformEntry)
        ⟨member', type, update, value, id⟩ := ⟨rfl, fun he => by rw [hmember he]⟩
    refine (putGroup grown).bind fun _ _ _ => ?_
    refine (Twins.change (fun he => by rw [alike.eq he]) fun s s' hs => ?_).bind fun _ _ _ =>
      .pure alike
    rw [BuildState.shape_putUniform, BuildState.shape_putUniform, hs, alike.shape]
  · simp only [hu, hu']
    have type' : u.type = u'.type := (congrArg UniformEntry.type alike.shape :)
    exact .check (by rw [type']) fun _ => .pure alike

theorem scheduleUniform (henv : env.Twin same env') (key : UniformKey) (update : Cadence)
    (id : NodeId) :
    Twins same env env' (fun _ _ => True) (Build.scheduleUniform key update id)
      (Build.scheduleUniform key update id) := by
  refine .ite Iff.rfl (fun _ => .pure trivial) fun _ => ?_
  refine (groupEntry key.group).bind fun g g' hg => ?_
  have cadence : g.cadence = g'.cadence := (congrArg GroupEntry.cadence hg.shape :)
  have enter : Twins same env env' (fun _ _ => True)
      (do
        let uid := (← MonadReader.read).plan.graph.uid
        modify fun s => { s with updates := s.updates.put id ⟨uid, id, key.name, update⟩ } :
          Build Unit)
      (do
        let uid := (← MonadReader.read).plan.graph.uid
        modify fun s => { s with updates := s.updates.put id ⟨uid, id, key.name, update⟩ }) := by
    refine .read ?_
    dsimp only
    rw [henv.plan.graph.uid]
    refine .change (fun _ => rfl) fun s s' hs => ?_
    rw [BuildState.shape_putUpdate, BuildState.shape_putUpdate, hs]
  rw [cadence]
  split
  · exact .check Iff.rfl fun _ => enter
  · refine (putGroup ⟨?_, fun he => by rw [hg.eq he]⟩).bind fun _ _ _ => enter
    show { g.shape with cadence := some update } = { g'.shape with cadence := some update }
    rw [hg.shape]

theorem registerUniform (henv : env.Twin same env') (id : NodeId) (name : String) (type : ValueType)
    (group : Option String) (update : Cadence) (value : List Float32) :
    Twins same env env' (fun r r' => r.1 = r'.1 ∧ Alike same UniformEntry.shape r.2 r'.2)
      (Build.registerUniform id name type group update value)
      (Build.registerUniform id name type group update value) := by
  unfold Build.registerUniform
  refine .check Iff.rfl fun _ => ?_
  refine (uniformEntry _ type update value id).bind fun u u' hu => ?_
  exact (scheduleUniform henv _ update id).bind fun _ _ _ => .pure ⟨rfl, hu⟩

theorem useUniform (henv : env.Twin same env') (group : String) {u u' : UniformEntry}
    (hu : Alike same UniformEntry.shape u u') :
    Twins same env env' (Made same) (Build.useUniform group u) (Build.useUniform group u') := by
  refine (groupEntry group).bind fun g g' hg => ?_
  have binding : g.binding = g'.binding := (congrArg GroupEntry.binding hg.shape :)
  have declare : Twins same env env' (Made same)
      (do
        Build.modifyHere fun b => { b with groups := appendNew b.groups group }
        return Expr.reference (.uniform g.inst u.member))
      (do
        Build.modifyHere fun b => { b with groups := appendNew b.groups group }
        return Expr.reference (.uniform g'.inst u'.member)) :=
    (collect henv fun _ => by rfl).bind fun _ _ _ => .pure fun he => by rw [hg.eq he, hu.eq he]
  refine .ite (by rw [binding]) (fun _ => ?_) fun _ => declare
  refine (claimBinding 1).bind fun b b' hb => ?_
  refine (putGroup ⟨?_, fun he => by rw [hg.eq he, hb]⟩).bind fun _ _ _ => declare
  show { g.shape with binding := some b } = { g'.shape with binding := some b' }
  rw [hg.shape, hb]

/-! ### Textures -/

theorem putTexture {name : String} {t t' : TextureEntry} (h : Alike same TextureEntry.shape t t') :
    Twins same env env' (fun _ _ => True)
      (modify fun s => { s with textures := s.textures.put name t } : Build Unit)
      (modify fun s => { s with textures := s.textures.put name t' }) := by
  refine .change (fun he => by rw [h.eq he]) fun s s' hs => ?_
  rw [BuildState.shape_putTexture, BuildState.shape_putTexture, hs, h.shape]

theorem registerTexture (name : String) :
    Twins same env env' (Alike same TextureEntry.shape) (Build.registerTexture name)
      (Build.registerTexture name) := by
  refine .get fun s s' h => ?_
  rcases OrderedMap.found (h.map BuildState.textures fun _ _ h =>
    congrArg Shape.textures h) name with
    ⟨hn, hn'⟩ | ⟨t, t', ht, ht', alike⟩
  · simp only [hn, hn']
    refine (claimGlobal (.refl _)).bind fun texture texture' htexture => ?_
    refine (claimGlobal (htexture.map (· ++ "_sampler"))).bind fun sampler sampler' hsampler => ?_
    have alike : Alike same TextureEntry.shape (⟨texture, sampler, none⟩ : TextureEntry)
        ⟨texture', sampler', none⟩ := ⟨rfl, fun he => by rw [htexture he, hsampler he]⟩
    exact (putTexture alike).bind fun _ _ _ => .pure alike
  · simp only [ht, ht']
    exact .pure alike

theorem useTexture (henv : env.Twin same env') (name : String) :
    Twins same env env' (Alike same TextureEntry.shape) (Build.useTexture name)
      (Build.useTexture name) := by
  refine (registerTexture name).bind fun t t' ht => ?_
  have binding : t.binding = t'.binding := (congrArg TextureEntry.binding ht.shape :)
  have declare : Twins same env env' (Alike same TextureEntry.shape)
      (do
        Build.modifyHere fun b => { b with textures := appendNew b.textures name }
        return t)
      (do
        Build.modifyHere fun b => { b with textures := appendNew b.textures name }
        return t') := (collect henv fun _ => by rfl).bind fun _ _ _ => .pure ht
  refine .ite (by rw [binding]) (fun _ => ?_) fun _ => declare
  refine (claimBinding 2).bind fun b b' hb => ?_
  refine (putTexture ⟨?_, fun he => by rw [ht.eq he, hb]⟩).bind fun _ _ _ => declare
  show { t.shape with binding := some b } = { t'.shape with binding := some b' }
  rw [ht.shape, hb]

/-! ### Storage buffers -/

theorem putStorage {name : String} {b b' : StorageEntry} (h : Alike same StorageEntry.shape b b') :
    Twins same env env' (fun _ _ => True)
      (modify fun s => { s with storage := s.storage.put name b } : Build Unit)
      (modify fun s => { s with storage := s.storage.put name b' }) := by
  refine .change (fun he => by rw [h.eq he]) fun s s' hs => ?_
  rw [BuildState.shape_putStorage, BuildState.shape_putStorage, hs, h.shape]

theorem registerStorage (name : String) (element : ValueType) (count : Option UInt32)
    (access : Access) :
    Twins same env env' (Alike same StorageEntry.shape)
      (Build.registerStorage name element count access)
      (Build.registerStorage name element count access) := by
  refine .get fun s s' h => ?_
  rcases OrderedMap.found (h.map BuildState.storage fun _ _ h => congrArg Shape.storage h) name with
    ⟨hn, hn'⟩ | ⟨b, b', hb, hb', alike⟩
  · simp only [hn, hn']
    refine .check Iff.rfl fun _ => ?_
    refine (claimGlobal (.refl _)).bind fun emitted emitted' hemitted => ?_
    refine (claimGlobal (hemitted.map (Name.upperCamel · ++ "Buffer"))).bind
      fun block block' hblock => ?_
    have alike : Alike same StorageEntry.shape
        (⟨emitted, block, element, count, access, none⟩ : StorageEntry)
        ⟨emitted', block', element, count, access, none⟩ :=
      ⟨rfl, fun he => by rw [hemitted he, hblock he]⟩
    exact (putStorage alike).bind fun _ _ _ => .pure alike
  · simp only [hb, hb']
    have element' : b.element = b'.element := (congrArg StorageEntry.element alike.shape :)
    have count' : b.count = b'.count := (congrArg StorageEntry.count alike.shape :)
    refine .check (by rw [element', count']) fun _ => ?_
    have merged : Alike same StorageEntry.shape
        (if access = .readWrite then { b with access := access } else b)
        (if access = .readWrite then { b' with access := access } else b') := by
      refine ⟨?_, fun he => by rw [alike.eq he]⟩
      split
      · show { b.shape with access := access } = { b'.shape with access := access }
        rw [alike.shape]
      · exact alike.shape
    exact (putStorage merged).bind fun _ _ _ => .pure merged

theorem useStorage (henv : env.Twin same env') (name : String) {b b' : StorageEntry}
    (h : Alike same StorageEntry.shape b b') :
    Twins same env env' (Made same) (Build.useStorage name b) (Build.useStorage name b') := by
  have binding : b.binding = b'.binding := (congrArg StorageEntry.binding h.shape :)
  have element : b.element = b'.element := (congrArg StorageEntry.element h.shape :)
  have declare : Twins same env env' (Made same)
      (do
        Build.markType b.element
        Build.modifyHere fun h => { h with storage := appendNew h.storage name }
        return Expr.reference (.storage b.name))
      (do
        Build.markType b'.element
        Build.modifyHere fun h => { h with storage := appendNew h.storage name }
        return Expr.reference (.storage b'.name)) := by
    rw [element]
    refine (markType henv _).bind fun _ _ _ => (collect henv fun _ => by rfl).bind fun _ _ _ => ?_
    exact .pure fun he => by rw [h.eq he]
  refine .ite (by rw [binding]) (fun _ => ?_) fun _ => declare
  refine (claimBinding 1).bind fun n n' hn => ?_
  refine (putStorage ⟨?_, fun he => by rw [h.eq he, hn]⟩).bind fun _ _ _ => declare
  show { b.shape with binding := some n } = { b'.shape with binding := some n' }
  rw [h.shape, hn]

/-! ### Vertex attributes and built-in inputs -/

theorem attributeType (henv : env.Twin same env') (name : String) (explicit : Option ValueType) :
    Twins same env env' Eq (Build.attributeType name explicit)
      (Build.attributeType name explicit) := by
  refine .read ?_
  rw [henv.plan.options.attributes]
  split
  · exact .pure rfl
  · exact .fail

theorem registerAttribute (henv : env.Twin same env') (name : String)
    (explicit : Option ValueType) :
    Twins same env env' (Alike same AttributeEntry.shape) (Build.registerAttribute name explicit)
      (Build.registerAttribute name explicit) := by
  refine (attributeType henv name explicit).bind fun type type' htype => ?_
  subst htype
  refine .check Iff.rfl fun _ => .get fun s s' h => ?_
  rcases OrderedMap.found (h.map BuildState.attributes fun _ _ h =>
    congrArg Shape.attributes h) name with
    ⟨hn, hn'⟩ | ⟨a, a', ha, ha', alike⟩
  · simp only [hn, hn']
    refine (claimGlobal (.refl _)).bind fun emitted emitted' hemitted => ?_
    have alike : Alike same AttributeEntry.shape (⟨emitted, type, none⟩ : AttributeEntry)
        ⟨emitted', type, none⟩ := ⟨rfl, fun he => by rw [hemitted he]⟩
    refine (Twins.change (fun he => by rw [alike.eq he]) fun s s' hs => ?_).bind
      fun _ _ _ => .pure alike
    rw [BuildState.shape_putAttribute, BuildState.shape_putAttribute, hs, alike.shape]
  · simp only [ha, ha']
    have type' : a.type = a'.type := (congrArg AttributeEntry.type alike.shape :)
    exact .check (by rw [type']) fun _ => .pure alike

theorem useAttribute (henv : env.Twin same env') (name : String) (explicit : Option ValueType) :
    Twins same env env' (Made same) (Build.useAttribute name explicit)
      (Build.useAttribute name explicit) := by
  refine (registerAttribute henv name explicit).bind fun a a' ha => ?_
  have location : a.location = a'.location := (congrArg AttributeEntry.location ha.shape :)
  refine .when (S := fun _ _ => True) (by rw [location]) (fun _ => ?_) ?_
  · refine .change (fun he => by rw [ha.eq he]) fun s s' hs => ?_
    have next : s.nextAttribute = s'.nextAttribute := congrArg Shape.nextAttribute hs
    have entry : AttributeEntry.shape { a with location := some s.nextAttribute } =
        AttributeEntry.shape { a' with location := some s'.nextAttribute } := by
      show { a.shape with location := some s.nextAttribute } =
        { a'.shape with location := some s'.nextAttribute }
      rw [ha.shape, next]
    rw [BuildState.shape_locateAttribute, BuildState.shape_locateAttribute, hs, entry, next]
  · exact (collect henv fun _ => by rfl).bind fun _ _ _ => .pure fun he => by rw [ha.eq he]

theorem useBuiltin (henv : env.Twin same env') (b : Builtin) :
    Twins same env env' (Made same) (Build.useBuiltin b) (Build.useBuiltin b) := by
  refine (stage henv).bind fun t t' ht => .check (by rw [ht]) fun _ => ?_
  exact (collect henv fun _ => by rfl).bind fun _ _ _ => .pure (.refl _)

end Build.Twins

end ShaderGraph
