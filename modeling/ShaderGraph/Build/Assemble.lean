import ShaderGraph.Build.Generate
import ShaderGraph.Program.Source
import ShaderGraph.Sorting

/-!
# Assembly

What a build collected, put together as programs and as the list of what they need.

* `stageProgram` is the program of one stage. Declarations come in the order of their numbers.
* `checkedProgram` is that program if the host accepts its source.
* `artifact` is what the build hands over. What no stage refers to has no number and is left
  out.
-/

namespace ShaderGraph

namespace BuildState

variable (s : BuildState) (p : Plan)

/-! ### Programs -/

/-- The declaration of a struct, if its members can be written. -/
def structDecl (name : String) : Except Cause (StructDecl ValueType) :=
  match p.structs.get? name with
  | none => .error (LayoutError.undeclaredStruct name)
  | some members =>
    match members.findSome? fun m => p.options.dialect.refuses? m.type with
    | some e => .error e
    | none => .ok ⟨name, members.map fun m => (m.name, m.type)⟩

/-- The declaration of a uniform block. -/
def uniformBlock? (group : String) : Option (UniformBlock ValueType) :=
  (s.groups.get? group).map fun g => ⟨g.block, g.inst, g.binding.getD 0, g.members⟩

/-- The declaration of a texture. -/
def textureDecl? (name : String) : Option TextureDecl :=
  (s.textures.get? name).map fun t =>
    ⟨t.name, t.sampler, t.binding.getD 0, (t.binding.map (· + 1)).getD 0⟩

/-- The declaration of a storage buffer. -/
def storageDecl? (name : String) : Option (StorageDecl ValueType) :=
  (s.storage.get? name).map fun b =>
    ⟨b.name, b.block, b.binding.getD 0, b.element, b.count, b.access = .read⟩

/-- The declaration of an attribute. -/
def attributeDecl? (name : String) : Option (LocationDecl ValueType) :=
  (s.attributes.get? name).map fun a => ⟨a.name, a.location.getD 0, a.type, .perspective, none⟩

/-- The declaration of a varying. -/
def varyingDecl? (id : NodeId) : Option (LocationDecl ValueType) :=
  (s.varyings.get? id).map fun v =>
    ⟨v.name, v.location.getD 0, v.type, v.interpolation, v.sampling⟩

/-- Why a program cannot be written: an element of a storage buffer has no spelling. -/
def storageFault? (decls : List (StorageDecl ValueType)) : Option TypeError :=
  decls.findSome? fun b => p.options.dialect.refuses? b.element

/-- The program of a stage. -/
def stageProgram (stage : Stage) : Except Cause Program := do
  let b := s.stages.get stage
  let structs ← b.structs.mapM (structDecl p)
  let storage := b.storage.filterMap s.storageDecl?
  match storageFault? p storage with
  | some e => .error e
  | none =>
    return {
      stage := stage
      structs := structs
      uniforms := sortByNumber UniformBlock.binding (b.groups.filterMap s.uniformBlock?)
      textures := sortByNumber TextureDecl.textureBinding (b.textures.filterMap s.textureDecl?)
      storage := sortByNumber StorageDecl.binding storage
      attributes := sortByNumber LocationDecl.location (b.attributes.filterMap s.attributeDecl?)
      varyings := sortByNumber LocationDecl.location (b.varyings.filterMap s.varyingDecl?)
      builtins := b.builtins
      functions := b.functions.filterMap fun id => (s.functions.get? id).map FunctionEntry.code
      locals := b.locals
      body := b.outer.statements
      output := b.output
      workgroup := p.options.workgroup }

/-! ### Resources -/

/-- The stages in which something is used. -/
def visibility (active : List Stage) (used : StageBuild → Bool) : List Stage :=
  Stage.all.filter fun stage => active.contains stage && used (s.stages.get stage)

/-- The members of a group of uniforms. -/
def slots (group : String) : List Layout.Slot :=
  (s.uniforms.entries.filter fun u => u.1.group = group).map fun u =>
    ⟨u.2.member, u.2.type, u.2.value⟩

/-- The buffer of a group of uniforms. -/
def uniformBuffer? (active : List Stage) (group : String) (g : GroupEntry) : Option Resource :=
  g.binding.map fun binding =>
    let (members, size) := Layout.layOut (s.slots group)
    .uniformBuffer
      { group := group, block := g.block, binding := binding, cadence := g.cadence.getD .none
        size := size, members := members
        visibility := s.visibility active fun b => b.groups.contains group }

/-- A texture and its sampler. -/
def textureResources (active : List Stage) (name : String) (t : TextureEntry) : List Resource :=
  match t.binding with
  | none => []
  | some binding =>
    let stages := s.visibility active fun b => b.textures.contains name
    [.texture t.name binding stages, .sampler t.sampler (binding + 1) stages]

/-- A storage buffer. -/
def storageResource? (active : List Stage) (name : String) (b : StorageEntry) :
    Option Resource :=
  b.binding.map fun binding =>
    .storageBuffer b.name binding b.element b.count (b.access = .read)
      (s.visibility active fun h => h.storage.contains name)

/-- Everything that is bound at a number, in the order of the numbers. -/
def resources (active : List Stage) : List Resource :=
  sortByNumber Resource.binding <|
    (s.groups.entries.filterMap fun g => s.uniformBuffer? active g.1 g.2) ++
    (s.textures.entries.flatMap fun t => s.textureResources active t.1 t.2) ++
    (s.storage.entries.filterMap fun b => s.storageResource? active b.1 b.2)

/-- The uniforms of the groups that are bound. -/
def uniformInputs : List UniformInput :=
  s.uniforms.entries.filterMap fun (key, u) =>
    if ((s.groups.get? key.group).bind GroupEntry.binding).isSome then
      some ⟨key.name, u.type, key.group, u.update, u.value, u.node⟩
    else none

/-- The attributes that a program reads, in the order of their locations. -/
def attributeInputs : List AttributeInput :=
  sortByNumber AttributeInput.location <|
    s.attributes.values.filterMap fun a => a.location.map fun l => ⟨a.name, a.type, l⟩

/-- The varyings that are written, in the order of their locations. -/
def varyingLinks : List VaryingLink :=
  sortByNumber VaryingLink.location <|
    s.varyings.values.filterMap fun v =>
      v.location.map fun l => ⟨v.name, v.type, l, v.interpolation, v.sampling⟩

/-- The native functions that a stage declares. -/
def nativeCodes (active : List Stage) : List NativeCode :=
  s.functions.entries.filterMap fun (id, f) =>
    let stages := s.visibility active fun b => b.functions.contains id
    if stages.isEmpty then none else some ⟨f.name, f.code, stages⟩

/-- The program of a stage, if the host accepts its source where the settings ask for that. -/
def checkedProgram (stage : Stage) : Except BuildError Program :=
  match s.stageProgram p stage with
  | .error c => .error (.ofCause c)
  | .ok program =>
    let dialect := p.options.dialect
    if p.options.validate then
      match p.host.validate dialect stage (program.source dialect) with
      | .ok () => .ok program
      | .error report =>
        .error { BuildError.ofCause (DialectError.rejected report) with stage := some stage }
    else .ok program

/-- What a build hands over. -/
def artifact (active : List Stage) : Except BuildError Artifact := do
  let programs ← active.mapM (s.checkedProgram p)
  return {
    dialect := p.options.dialect
    programs := programs
    attributes := s.attributeInputs
    bindings := s.resources active
    uniforms := s.uniformInputs
    varyings := s.varyingLinks
    codes := s.nativeCodes active
    updates := s.updates.values
    updatesBefore := p.updatesBefore.values }

end BuildState

end ShaderGraph
