import ShaderGraph.Artifact.Basic
import ShaderGraph.Json.Value

/-!
# Artifacts as JSON

The record of a build for a renderer that runs elsewhere: the sources and all that they are fed
with. `Artifact.toJson` is the whole record.
-/

namespace ShaderGraph

/-- The names of some stages. -/
def stagesJson (stages : List Stage) : Json := Json.ofList (fun s => .string s.name) stages

/-- The components of a value. -/
def componentsJson (value : List Float32) : Json :=
  Json.ofList (fun v => .number (.single v)) value

/-- A type by its name. -/
def typeJson (t : ValueType) : Json := .string t.name

/-- An attribute. -/
def AttributeInput.toJson (a : AttributeInput) : Json :=
  .object [("name", .string a.name), ("ty", typeJson a.type), ("location", .nat a.location)]

/-- A uniform. -/
def UniformInput.toJson (u : UniformInput) : Json :=
  .object
    [("name", .string u.name), ("ty", typeJson u.type), ("group", .string u.group),
     ("update", .string u.update.name), ("value", componentsJson u.value),
     ("node", .nat u.node.index)]

/-- A varying. -/
def VaryingLink.toJson (v : VaryingLink) : Json :=
  .object
    [("name", .string v.name), ("ty", typeJson v.type), ("location", .nat v.location),
     ("interpolation", .string v.interpolation.name),
     ("sampling", Json.ofOption (fun s => .string s.name) v.sampling)]

/-- A native function. -/
def NativeCode.toJson (c : NativeCode) : Json :=
  .object [("name", .string c.name), ("code", .string c.code), ("stages", stagesJson c.stages)]

/-- A node to be refreshed. -/
def UpdateRecord.toJson (r : UpdateRecord) : Json :=
  .object
    [("graph", .nat r.graph), ("node", .nat r.node.index), ("label", .string r.label),
     ("cadence", .string r.cadence.name)]

/-- A member of a uniform buffer. -/
def memberJson (m : Layout.Placed) : Json :=
  .object
    [("name", .string m.name), ("ty", typeJson m.type), ("offset", .nat m.offset),
     ("size", .nat m.size), ("value", componentsJson m.value)]

/-- What the record of a resource starts with. -/
def resourceFields (kind : String) (fields : List (String × Json)) : Json :=
  .object (("kind", .string kind) :: fields)

/-- A resource. -/
def Resource.toJson : Resource → Json
  | .uniformBuffer b =>
    resourceFields "uniformBuffer"
      [("group", .string b.group), ("block", .string b.block), ("binding", .nat b.binding),
       ("cadence", .string b.cadence.name), ("size", .nat b.size),
       ("members", Json.ofList memberJson b.members), ("visibility", stagesJson b.visibility)]
  | .texture name binding visibility =>
    resourceFields "texture"
      [("name", .string name), ("binding", .nat binding), ("visibility", stagesJson visibility)]
  | .sampler name binding visibility =>
    resourceFields "sampler"
      [("name", .string name), ("binding", .nat binding), ("visibility", stagesJson visibility)]
  | .storageBuffer name binding element count readOnly visibility =>
    resourceFields "storageBuffer"
      [("name", .string name), ("binding", .nat binding), ("element", typeJson element),
       ("count", Json.ofOption (fun n => .nat n.toNat) count), ("readOnly", .bool readOnly),
       ("visibility", stagesJson visibility)]

/-- The record of a build. -/
def Artifact.toJson (a : Artifact) : Json :=
  .object <|
    [("dialect", .string a.dialect.name)] ++
    (Stage.all.map fun s => (s.name, Json.ofOption .string (a.source? s))) ++
    [("attributes", Json.ofList AttributeInput.toJson a.attributes),
     ("bindings", Json.ofList Resource.toJson a.bindings),
     ("uniforms", Json.ofList UniformInput.toJson a.uniforms),
     ("varyings", Json.ofList VaryingLink.toJson a.varyings),
     ("codes", Json.ofList NativeCode.toJson a.codes),
     ("updateNodes", Json.ofList UpdateRecord.toJson a.updates),
     ("updateBeforeNodes", Json.ofList UpdateRecord.toJson a.updatesBefore)]

end ShaderGraph
