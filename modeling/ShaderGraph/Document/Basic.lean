import ShaderGraph.Document.Options
import ShaderGraph.Json.Reader

/-!
# Graph documents

A document lists nodes with their parameters, connects the output of one node to an input of
another, and names the root of each stage.

* `Document.ofJson?` is the document that a value describes, `Document.read?` the one that a
  text describes.
* `Document.incoming?` finds what is connected to an input.
-/

namespace ShaderGraph

/-- Who made a document, and when. -/
structure Metadata where
  name : String
  created : Option String
  modified : Option String
deriving DecidableEq, Repr

/-- A node of a document. -/
structure DocumentNode where
  id : String
  kind : String
  params : OrderedMap String Json

/-- An input or output of a node. -/
structure Socket where
  node : String
  name : String
deriving DecidableEq, Repr

/-- A connection from an output to an input. -/
structure Connection where
  id : String
  source : Socket
  target : Socket
deriving DecidableEq, Repr

/-- A graph as it is written down. -/
structure Document where
  version : String
  metadata : Option Metadata
  nodes : List DocumentNode
  connections : List Connection
  /-- The root of each stage, by the name of the stage. -/
  outputs : OrderedMap String String
  options : Option BuildOptions

namespace Document

/-- The version of a document that names none. -/
def standardVersion : String := "1.0"

/-! ### Reading -/

/-- The metadata that a value describes. -/
def readMetadata? (v : Json) : Option Metadata := do
  let r ← v.asRecord? ["name", "created", "modified"] 3
  let name ← r.field? "name" Json.asText?
  let created ← r.fieldOr? "created" none (Json.asOption? Json.asText?)
  let modified ← r.fieldOr? "modified" none (Json.asOption? Json.asText?)
  return ⟨name, created, modified⟩

/-- The node that a value describes. -/
def readNode? (v : Json) : Option DocumentNode := do
  let r ← v.asRecord? ["id", "type", "params"] 2
  let id ← r.field? "id" Json.asText?
  let kind ← r.field? "type" Json.asText?
  let params ← r.fieldOr? "params" .empty (Json.asMap? Json.asValue?)
  return ⟨id, kind, params⟩

/-- The input or output that a value describes. -/
def readSocket? (v : Json) : Option Socket := do
  let r ← v.asRecord? ["nodeId", "portId"] 2
  let node ← r.field? "nodeId" Json.asText?
  let name ← r.field? "portId" Json.asText?
  return ⟨node, name⟩

/-- The connection that a value describes. -/
def readConnection? (v : Json) : Option Connection := do
  let r ← v.asRecord? ["id", "from", "to"] 3
  let id ← r.fieldOr? "id" "" Json.asText?
  let source ← r.field? "from" readSocket?
  let target ← r.field? "to" readSocket?
  return ⟨id, source, target⟩

/-- The fields of a document. -/
def fieldNames : List String :=
  ["version", "metadata", "nodes", "connections", "outputs", "options"]

/-- The document that a value describes. -/
def ofJson? (v : Json) : Option Document := do
  let r ← v.asRecord? fieldNames 3
  let version ← r.fieldOr? "version" standardVersion Json.asText?
  let metadata ← r.fieldOr? "metadata" none (Json.asOption? readMetadata?)
  let nodes ← r.field? "nodes" (Json.asList? readNode?)
  let connections ← r.fieldOr? "connections" [] (Json.asList? readConnection?)
  let outputs ← r.fieldOr? "outputs" .empty (Json.asMap? Json.asText?)
  let options ← r.fieldOr? "options" none (Json.asOption? BuildOptions.ofJson?)
  return ⟨version, metadata, nodes, connections, outputs, options⟩

/-- The document that a text describes. -/
def read? (text : String) : Option Document := (Json.readForm? text).bind ofJson?

/-! ### Looking up -/

/-- The node with the given name. -/
def node? (d : Document) (id : String) : Option DocumentNode := d.nodes.find? fun n => n.id = id

/-- What is connected to an input of a node; of several connections the first counts. -/
def incoming? (d : Document) (node key : String) : Option Connection :=
  d.connections.find? fun c => c.target = ⟨node, key⟩

end Document

namespace DocumentNode

/-- The number under a key. -/
def number? (n : DocumentNode) (key : String) : Option Float :=
  (n.params.get? key).bind Json.asFloat?

/-- The text under a key. -/
def text? (n : DocumentNode) (key : String) : Option String :=
  (n.params.get? key).bind Json.asText?

/-- The truth value under a key. -/
def flag? (n : DocumentNode) (key : String) : Option Bool :=
  (n.params.get? key).bind Json.asBool?

end DocumentNode

end ShaderGraph
