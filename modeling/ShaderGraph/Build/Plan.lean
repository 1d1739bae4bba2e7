import ShaderGraph.Build.Host
import ShaderGraph.Build.Options
import ShaderGraph.Dialect.Words
import ShaderGraph.Error.Build
import ShaderGraph.Graph.Author
import ShaderGraph.Name.Table
import ShaderGraph.Update

/-!
# Plans

Before anything is analysed, the nodes that stand for others are replaced by what they stand
for.

* `Plan.addExpansion` adds what a node stands for; custom nodes do what the setup of the host says.
  `Plan.expand` repeats this in rounds until nothing that the roots refer to is left to replace.
* `Plan.resolve` follows replacements to the node that is built.
* `Plan.structs` are the struct layouts of the graph; two layouts of one name are equal.

A plan does not change any more once the build goes on.
-/

namespace ShaderGraph

/-- A graph with its replacements and struct layouts. -/
structure Plan where
  options : BuildOptions
  host : Host
  graph : Graph
  /-- The node that takes the place of another. -/
  expansions : OrderedMap NodeId NodeId
  structs : OrderedMap String (List Member)
  /-- The custom nodes that are refreshed. -/
  updates : OrderedMap NodeId UpdateRecord
  /-- The custom nodes that are refreshed ahead of the others. -/
  updatesBefore : OrderedMap NodeId UpdateRecord

namespace Plan

/-- The plan before anything is replaced. -/
def ofGraph (g : Graph) (options : BuildOptions) (host : Host := .plain) : Plan :=
  ⟨options, host, g, .empty, .empty, .empty, .empty⟩

/-- Follows at most `fuel` replacements. -/
def follow (expansions : OrderedMap NodeId NodeId) : Nat → NodeId → Option NodeId
  | fuel, id =>
    match expansions.get? id, fuel with
    | none, _ => some id
    | some _, 0 => none
    | some next, fuel + 1 => follow expansions fuel next

/-- The node that is built in the place of `id`. A chain that is longer than the number of
replacements runs in a circle. -/
def resolve (p : Plan) (id : NodeId) : Except GraphError NodeId :=
  match follow p.expansions (min p.options.maxDepth p.expansions.size) id with
  | some id => .ok id
  | none => .error (.chain id)

/-- The node at a position. -/
def node (p : Plan) (id : NodeId) : Except GraphError Node :=
  match p.graph.get? id with
  | some n => .ok n
  | none => .error (.missingNode id)

/-- A node as errors point at it. -/
def location (p : Plan) (id : NodeId) : Location :=
  ⟨id, ((p.graph.get? id).map NodeOf.kindName).getD "Missing", p.graph.label? id⟩

/-! ### Replacing nodes -/

/-- Walks from the nodes of a list to all that they refer to, and collects those that are
still to be replaced. -/
def pendingFrom (p : Plan) :
    Nat → List NodeId → List NodeId → List NodeId → Except GraphError (List NodeId)
  | 0, _, _, pending => .ok pending
  | _, [], _, pending => .ok pending
  | fuel + 1, id :: rest, visited, pending =>
    match p.resolve id with
    | .error e => .error e
    | .ok id =>
      if visited.contains id then pendingFrom p fuel rest visited pending
      else match p.node id with
        | .error e => .error e
        | .ok n =>
          if n.isExpandable then pendingFrom p fuel rest (id :: visited) (pending ++ [id])
          else pendingFrom p fuel (n.children ++ rest) (id :: visited) pending

/-- The number of references in a graph. -/
def referenceCount (g : Graph) : Nat :=
  g.entries.foldl (fun n e => n + e.node.children.length) 0

/-- The nodes below the roots that are still to be replaced, in the order in which they are
met. Each reference is followed once at most. -/
def pending (p : Plan) (roots : List NodeId) : Except GraphError (List NodeId) :=
  p.pendingFrom (roots.length + referenceCount p.graph + 1) roots [] []

/-- The record of a node that is refreshed, if it is. -/
def record (updates : OrderedMap NodeId UpdateRecord) (g : Graph) (id : NodeId) (label : String)
    (cadence : Cadence) : OrderedMap NodeId UpdateRecord :=
  if cadence = .none then updates else updates.put id ⟨g.uid, id, label, cadence⟩

/-- What takes the place of a node is another node of the graph. -/
def checkTarget (g : Graph) (id target : NodeId) : Except BuildError NodeId :=
  if target = id then .error (.ofCause GraphError.setupSelf)
  else if (g.get? target).isNone then .error (.ofCause (GraphError.setupMissing target))
  else .ok target

/-- Adds the nodes that a node stands for. The first part is the node that takes its place, or
why there is none. -/
def addExpansion (p : Plan) (id : NodeId) : Except BuildError NodeId × Plan :=
  match p.graph.get? id with
  | some (.remap node inLow inHigh outLow outHigh) =>
    let result := Id.run (Author.remapExpansion node inLow inHigh outLow outHigh p.graph)
    (checkTarget result.2 id result.1, { p with graph := result.2 })
  | some (.custom c) =>
    let result := p.host.setup c p.graph
    (result.1.mapError Refusal.error >>= checkTarget result.2 id, { p with
      graph := result.2
      updates := record p.updates p.graph id c.name c.update
      updatesBefore := record p.updatesBefore p.graph id c.name c.updateBefore })
  -- another node was put here since the round began
  | some _ => (.ok id, p)
  | none => (.error (.ofCause (GraphError.missingNode id)), p)

/-- Replaces a node. An error points at the node as it is after that. -/
def replaceNode (p : Plan) (id : NodeId) : Except BuildError Plan :=
  match p.addExpansion id with
  | (.ok target, p) => .ok { p with expansions := p.expansions.put id target }
  -- no stage is walked over yet; the vertex stage stands for all of them
  | (.error e, p) => .error (e.located (p.location id) .vertex)

/-- Replaces some nodes. -/
def replaceNodes (p : Plan) : List NodeId → Except BuildError Plan
  | [] => .ok p
  | id :: rest =>
    match p.replaceNode id with
    | .error e => .error e
    | .ok p => p.replaceNodes rest

/-- Replaces nodes in rounds, at most `rounds` of them. -/
def expandIn (roots : List NodeId) : Nat → Plan → Except BuildError Plan
  | rounds, p =>
    match p.pending roots with
    | .error e => .error (.ofCause e)
    | .ok [] => .ok p
    | .ok ids =>
      match rounds with
      | 0 => .error (.ofCause (GraphError.rounds p.options.maxDepth))
      | rounds + 1 =>
        match p.replaceNodes ids with
        | .error e => .error e
        | .ok p => expandIn roots rounds p

/-- Replaces nodes until none below the roots is left to replace. -/
def expand (p : Plan) (roots : List NodeId) : Except BuildError Plan :=
  expandIn roots p.options.maxDepth p

/-! ### Struct layouts -/

/-- Takes up a struct layout. -/
def addStruct (words : List String) (structs : OrderedMap String (List Member)) (name : String)
    (members : List Member) : Except LayoutError (OrderedMap String (List Member)) :=
  match structs.get? name with
  | some existing => if existing = members then .ok structs else .error (.structConflict name)
  | none =>
    if members.isEmpty then .error (.emptyStruct name)
    else if words.contains name || name.isEmpty then .error (.structName name)
    else .ok (structs.put name members)

/-- Takes up the struct layouts of some nodes. -/
def addStructs (words : List String) :
    List Node → OrderedMap String (List Member) →
      Except LayoutError (OrderedMap String (List Member))
  | [], structs => .ok structs
  | .structType name members :: rest, structs =>
    match addStruct words structs name members with
    | .error e => .error e
    | .ok structs => addStructs words rest structs
  | _ :: rest, structs => addStructs words rest structs

/-- Takes up the struct layouts of the graph. -/
def collectStructs (p : Plan) : Except BuildError Plan :=
  let nodes := p.graph.entries.toList.map Entry.node
  match addStructs (Dialect.reservedWords p.options.dialect) nodes .empty with
  | .error e => .error (.ofCause e)
  | .ok structs => .ok { p with structs := structs }

/-- The plan of a build with the given roots. -/
def make (g : Graph) (options : BuildOptions) (roots : List NodeId) (host : Host := .plain) :
    Except BuildError Plan :=
  match (ofGraph g options host).expand roots with
  | .error e => .error e
  | .ok p => p.collectStructs

/-- The names that are taken from the start: the reserved words and the structs. -/
def takenNames (p : Plan) : NameTable :=
  ⟨p.structs.keys.reverse ++ Dialect.reservedWords p.options.dialect⟩

/-! ### Small facts -/

theorem resolve_of_get?_eq_none {p : Plan} {id : NodeId} (h : p.expansions.get? id = none) :
    p.resolve id = .ok id := by
  unfold resolve follow
  simp [h]

end Plan

end ShaderGraph
