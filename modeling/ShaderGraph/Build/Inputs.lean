import ShaderGraph.Build.Declared
import ShaderGraph.Typing.Component

/-!
# Inputs

Uniforms, textures, storage buffers, vertex attributes and built-in inputs.

For each there is a step that enters it into its table and takes its names
(`registerUniform`, …), and a step that makes the current stage declare it and gives it a
number when that happens for the first time (`useUniform`, …).
-/

namespace ShaderGraph.Build

/-! ### Uniforms -/

/-- The entry of a group of uniforms; a new group takes the names of its block. -/
def groupEntry (group : String) : Build GroupEntry := do
  match (← get).groups.get? group with
  | some g => return g
  | none =>
    let block ← claimGlobal (Name.upperCamel group ++ "Uniforms")
    let inst ← claimGlobal (Name.lowerCamel group ++ "Uniforms")
    let g : GroupEntry := ⟨block, inst, none, [], none⟩
    modify fun s => { s with groups := s.groups.put group g }
    return g

/-- Changes the entry of a group of uniforms. -/
def putGroup (group : String) (g : GroupEntry) : Build Unit :=
  modify fun s => { s with groups := s.groups.put group g }

/-- The entry of a uniform; a new one becomes the last member of its group. -/
def uniformEntry (key : UniformKey) (type : ValueType) (update : Cadence) (value : List Float32)
    (id : NodeId) : Build UniformEntry := do
  match (← get).uniforms.get? key with
  | some u =>
    if u.type ≠ type then fail (LayoutError.uniformConflict key.name key.group type u.type)
    return u
  | none =>
    let g ← groupEntry key.group
    let member ← claimGlobal key.name
    putGroup key.group { g with members := g.members ++ [(member, type)] }
    let u : UniformEntry := ⟨member, type, update, value, id⟩
    modify fun s => { s with uniforms := s.uniforms.put key u }
    return u

/-- Records how often a uniform is refreshed. The uniforms of one group agree. -/
def scheduleUniform (key : UniformKey) (update : Cadence) (id : NodeId) : Build Unit := do
  if update = .none then return
  let g ← groupEntry key.group
  match g.cadence with
  | some existing =>
    if existing ≠ update then
      fail (LayoutError.cadenceConflict key.name key.group update existing)
  | none => putGroup key.group { g with cadence := some update }
  let uid := (← read).plan.graph.uid
  modify fun s => { s with updates := s.updates.put id ⟨uid, id, key.name, update⟩ }

/-- Enters a uniform; the first part is its group. -/
def registerUniform (id : NodeId) (name : String) (type : ValueType) (group : Option String)
    (update : Cadence) (value : List Float32) : Build (String × UniformEntry) := do
  if !type.isHostShareable then fail (LayoutError.uniformForm name type)
  let group := group.getD update.defaultGroup
  let u ← uniformEntry ⟨name, group⟩ type update value id
  scheduleUniform ⟨name, group⟩ update id
  return (group, u)

/-- A uniform as the current stage reads it. -/
def useUniform (group : String) (u : UniformEntry) : Build Expr := do
  let g ← groupEntry group
  if g.binding.isNone then
    let binding ← claimBinding 1
    putGroup group { g with binding := some binding }
  modifyHere fun b => { b with groups := appendNew b.groups group }
  return .reference (.uniform g.inst u.member)

/-! ### Textures -/

/-- The entry of a texture; a new one takes a name and one for its sampler. -/
def registerTexture (name : String) : Build TextureEntry := do
  match (← get).textures.get? name with
  | some t => return t
  | none =>
    let texture ← claimGlobal name
    let sampler ← claimGlobal (texture ++ "_sampler")
    let t : TextureEntry := ⟨texture, sampler, none⟩
    modify fun s => { s with textures := s.textures.put name t }
    return t

/-- A texture that the current stage samples. -/
def useTexture (name : String) : Build TextureEntry := do
  let t ← registerTexture name
  if t.binding.isNone then
    let binding ← claimBinding 2
    modify fun s => { s with textures := s.textures.put name { t with binding := some binding } }
  modifyHere fun b => { b with textures := appendNew b.textures name }
  return t

/-! ### Storage buffers -/

/-- Whether values of a type can be the elements of a storage buffer. -/
def isStorable : ValueType → Bool
  | .void | .texture | .array .. => false
  | _ => true

/-- The entry of a storage buffer. One node that writes makes the buffer writable for all. -/
def registerStorage (name : String) (element : ValueType) (count : Option UInt32)
    (access : Access) : Build StorageEntry := do
  match (← get).storage.get? name with
  | some b =>
    if b.element ≠ element || b.count ≠ count then fail (LayoutError.bufferConflict name)
    let b := if access = .readWrite then { b with access := access } else b
    modify fun s => { s with storage := s.storage.put name b }
    return b
  | none =>
    if !isStorable element then fail (LayoutError.bufferElement name element)
    let emitted ← claimGlobal name
    let block ← claimGlobal (Name.upperCamel emitted ++ "Buffer")
    let b : StorageEntry := ⟨emitted, block, element, count, access, none⟩
    modify fun s => { s with storage := s.storage.put name b }
    return b

/-- A storage buffer as the current stage refers to it. -/
def useStorage (name : String) (b : StorageEntry) : Build Expr := do
  if b.binding.isNone then
    let binding ← claimBinding 1
    modify fun s => { s with storage := s.storage.put name { b with binding := some binding } }
  markType b.element
  modifyHere fun h => { h with storage := appendNew h.storage name }
  return .reference (.storage b.name)

/-! ### Vertex attributes -/

/-- The type of an attribute: the one at the node, else the one in the settings. -/
def attributeType (name : String) (explicit : Option ValueType) : Build ValueType := do
  match explicit.or ((← read).plan.options.attributes.get? name) with
  | some t => return t
  | none => fail (TypeError.attributeType name)

/-- The entry of an attribute. -/
def registerAttribute (name : String) (explicit : Option ValueType) : Build AttributeEntry := do
  let type ← attributeType name explicit
  if !type.isInterface then fail (TypeError.attributeForm name type)
  match (← get).attributes.get? name with
  | some a =>
    if a.type ≠ type then fail (TypeError.attributeConflict name type a.type)
    return a
  | none =>
    let emitted ← claimGlobal name
    let a : AttributeEntry := ⟨emitted, type, none⟩
    modify fun s => { s with attributes := s.attributes.put name a }
    return a

/-- An attribute as the vertex program reads it. -/
def useAttribute (name : String) (explicit : Option ValueType) : Build Expr := do
  let a ← registerAttribute name explicit
  if a.location.isNone then
    modify fun s => { s with
      attributes := s.attributes.put name { a with location := some s.nextAttribute }
      nextAttribute := s.nextAttribute + 1 }
  modifyHere fun b => { b with attributes := appendNew b.attributes name }
  return .reference (.meshAttribute a.name)

/-! ### Built-in inputs -/

/-- A built-in input as the current stage reads it. -/
def useBuiltin (b : Builtin) : Build Expr := do
  if b.stage ≠ (← stage) then fail (ScopeError.builtinStage b)
  modifyHere fun h => { h with builtins := appendNew h.builtins b }
  return .reference (.builtin b)

end ShaderGraph.Build
