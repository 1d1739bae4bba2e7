import ShaderGraph.Stage
import ShaderGraph.ValueType

/-!
# Built-in inputs

The values that a stage receives from the pipeline. Each has a type and belongs to one
stage.
-/

namespace ShaderGraph

/-- A value that the pipeline hands to a stage. -/
inductive Builtin where
  | vertexIndex
  | instanceIndex
  | fragCoord
  | frontFacing
  | globalInvocationId
  | localInvocationId
  | workgroupId
deriving DecidableEq, Repr

namespace Builtin

/-- Every built-in input. -/
def all : List Builtin :=
  [vertexIndex, instanceIndex, fragCoord, frontFacing, globalInvocationId, localInvocationId,
   workgroupId]

/-- The name of a built-in input. -/
def name : Builtin → String
  | vertexIndex => "vertexIndex"
  | instanceIndex => "instanceIndex"
  | fragCoord => "fragCoord"
  | frontFacing => "frontFacing"
  | globalInvocationId => "globalInvocationId"
  | localInvocationId => "localInvocationId"
  | workgroupId => "workgroupId"

/-- The built-in input with the given name. -/
def ofName? (s : String) : Option Builtin := all.find? fun b => b.name = s

/-- The name of a built-in input as messages write it. -/
def title : Builtin → String
  | vertexIndex => "VertexIndex"
  | instanceIndex => "InstanceIndex"
  | fragCoord => "FragCoord"
  | frontFacing => "FrontFacing"
  | globalInvocationId => "GlobalInvocationId"
  | localInvocationId => "LocalInvocationId"
  | workgroupId => "WorkgroupId"

/-- The names that documents may use. -/
def aliases : List (String × Builtin) :=
  [("vertexIndex", vertexIndex), ("vertex_index", vertexIndex),
   ("instanceIndex", instanceIndex), ("instance_index", instanceIndex),
   ("fragCoord", fragCoord), ("frag_coord", fragCoord), ("position", fragCoord),
   ("frontFacing", frontFacing), ("front_facing", frontFacing),
   ("globalId", globalInvocationId), ("global_invocation_id", globalInvocationId),
   ("localId", localInvocationId), ("local_invocation_id", localInvocationId),
   ("workgroupId", workgroupId), ("workgroup_id", workgroupId)]

/-- Reads the name of a built-in input; blanks around it do not matter. -/
def read? (s : String) : Option Builtin := aliases.lookup (String.ofList (Text.trim s.toList))

/-- The type of a built-in input. -/
def type : Builtin → ValueType
  | vertexIndex | instanceIndex => .uint
  | fragCoord => .vec4
  | frontFacing => .bool
  | globalInvocationId | localInvocationId | workgroupId => .vector .uint .three

/-- The stage that a built-in input belongs to. -/
def stage : Builtin → Stage
  | vertexIndex | instanceIndex => .vertex
  | fragCoord | frontFacing => .fragment
  | globalInvocationId | localInvocationId | workgroupId => .compute

end Builtin

end ShaderGraph
