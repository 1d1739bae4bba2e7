import ShaderGraph.Build.Options
import ShaderGraph.Json.Record

/-!
# Options in documents

How the settings of a build are written in a document. A setting that is missing has its
standard value.
-/

namespace ShaderGraph.BuildOptions

/-- The fields of the settings. -/
def fieldNames : List String :=
  ["dialect", "attributes", "workgroupSize", "maxSetupDepth", "validate"]

/-- The extent of a workgroup. -/
def readWorkgroup? (v : Json) : Option WorkgroupSize :=
  match v.asList? Json.asWord? with
  | some [x, y, z] => some ⟨x, y, z⟩
  | _ => none

/-- A type, by its name. -/
def readType? (v : Json) : Option ValueType := v.asText?.bind ValueType.ofName?

/-- The settings that a value describes. -/
def ofJson? (v : Json) : Option BuildOptions := do
  let r ← v.asRecord? fieldNames 0
  let dialect ← r.fieldOr? "dialect" standard.dialect (Json.asChoice? Dialect.ofName?)
  let attributes ← r.fieldOr? "attributes" standard.attributes (Json.asMap? readType?)
  let workgroup ← r.fieldOr? "workgroupSize" standard.workgroup readWorkgroup?
  let maxDepth ← r.fieldOr? "maxSetupDepth" standard.maxDepth (Json.asNatBelow? UInt64.size)
  let validate ← r.fieldOr? "validate" standard.validate Json.asBool?
  return ⟨dialect, attributes, workgroup, maxDepth, validate⟩

/-- The settings as a value. -/
def toJson (o : BuildOptions) : Json :=
  .object
    [("dialect", .string o.dialect.name),
     ("attributes", .object (o.attributes.entries.map fun a => (a.1, .string a.2.name))),
     ("workgroupSize",
       Json.ofList (fun n => .nat n.toNat) [o.workgroup.x, o.workgroup.y, o.workgroup.z]),
     ("maxSetupDepth", .nat o.maxDepth),
     ("validate", .bool o.validate)]

end ShaderGraph.BuildOptions
