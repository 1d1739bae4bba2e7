import ShaderGraph.Json.Value
import ShaderGraph.Stage

/-!
# Document errors

Why a document does not describe a graph, and where.

* `DocumentFault` lists the causes and has their wording in `message`.
* `Surrounding` is something that was being read when the fault was met.
* `DocumentError.chain` is the whole report, from the outermost surrounding to the fault.
-/

namespace ShaderGraph

/-- Why a document does not describe a graph. -/
inductive DocumentFault where
  | repeatedNode
  | looseConnection (connection node : String)
  | noOutput
  | missingNode (id : String)
  | cycle (id : String)
  | missingInput (key : String)
  | missingParam (key : String)
  | unknownType (name : String)
  | unknownCadence (name : String)
  | unknownOperator (name : String)
  | unknownMethod (name : String)
  | unknownBuiltin (name : String)
  | unknownKind (name : String)
  | notNumbers (key : String) (item : Json)
  | notNumber (key : String)
  | interpolation
  | emptyJoin
  | levelWithoutUv

/-- The wording of a fault. -/
def DocumentFault.message : DocumentFault → String
  | repeatedNode => "graph document contains duplicate node ids"
  | looseConnection connection node =>
    s!"connection {connection} references missing node {node}"
  | noOutput => "graph document names no vertex, fragment or compute output"
  | missingNode id => s!"node not found: {id}"
  | cycle id => s!"cycle detected at node {id}"
  | missingInput key => s!"missing input `{key}`"
  | missingParam key => s!"missing param `{key}`"
  | unknownType name => s!"unknown type `{name}`"
  | unknownCadence name => s!"unknown update cadence `{name}`"
  | unknownOperator name => s!"unknown operator `{name}`"
  | unknownMethod name => s!"unknown math method `{name}`"
  | unknownBuiltin name => s!"unknown builtin `{name}`"
  | unknownKind name => s!"unsupported node type `{name}`"
  | notNumbers key item => s!"`{key}` must contain only numbers, got {item.compact}"
  | notNumber key => s!"`{key}` must be a number or an array of numbers"
  | interpolation => "invalid interpolation"
  | emptyJoin => "join needs at least one of x, y, z, w"
  | levelWithoutUv => "an explicit `level` needs a `uv` input"

/-- What was being read when a fault was met. -/
inductive Surrounding where
  | output (stage : Stage) (id : String)
  | node (id kind : String)
deriving DecidableEq, Repr

/-- The text of a surrounding. -/
def Surrounding.text : Surrounding → String
  | output stage id => s!"failed to lower {stage.name} output {id}"
  | node id kind => s!"node {id} ({kind})"

/-- A fault with what is around it, outermost first. -/
structure DocumentError where
  around : List Surrounding
  fault : DocumentFault

namespace DocumentError

/-- A fault with nothing around it. -/
def ofFault (f : DocumentFault) : DocumentError := ⟨[], f⟩

/-- Records that the fault was met inside something. -/
def inside (e : DocumentError) (s : Surrounding) : DocumentError :=
  { e with around := s :: e.around }

/-- The texts of the report, outermost first. -/
def chain (e : DocumentError) : List String := e.around.map Surrounding.text ++ [e.fault.message]

/-- The report in one line. -/
def message (e : DocumentError) : String := ": ".intercalate e.chain

end DocumentError

end ShaderGraph
