import ShaderGraph.Node.Basic

/-!
# Graphs

An arena of nodes that refer to each other by position, with the native functions they call.

* `Graph.push` appends a node and `Graph.replace` changes one in place; both count as a
  change of version, as does `Graph.addFunction`.
* `Graph.setLabel` names a node in messages and is no such change.
* `Graph.get?` and `Graph.label?` look a node and its name up.
* `Workspace` holds several graphs and hands each a number of its own; a copy of a graph is
  another graph.
-/

namespace ShaderGraph

/-- The source of a shader function. -/
structure NativeFunction where
  source : String
  dialect : Dialect
  includes : List FunctionId
deriving DecidableEq, Repr

/-- A node with the name that its author gave it. -/
structure Entry where
  node : Node
  label : Option String

/-- An arena of nodes and native functions. -/
structure Graph where
  /-- The number that tells this graph from all others. -/
  uid : Nat
  /-- How often nodes or functions have changed. -/
  version : Nat
  entries : Array Entry
  functions : Array NativeFunction
  /-- The varying that carries texture coordinates, once there is one. -/
  defaultUv : Option NodeId

namespace Graph

/-- The graph without nodes. -/
def empty (uid : Nat) : Graph := ⟨uid, 0, #[], #[], none⟩

/-- The number of nodes. -/
def size (g : Graph) : Nat := g.entries.size

/-- The node at a position. -/
def get? (g : Graph) (id : NodeId) : Option Node := g.entries[id.index]?.map Entry.node

/-- The name of a node in messages: the label it was given, else one of its own. -/
def label? (g : Graph) (id : NodeId) : Option String :=
  g.entries[id.index]?.bind fun e => e.label.or e.node.ownLabel

/-- The native function at a position. -/
def function? (g : Graph) (id : FunctionId) : Option NativeFunction := g.functions[id.index]?

/-- Appends a node. -/
def push (g : Graph) (node : Node) : NodeId × Graph :=
  (⟨g.size⟩, { g with entries := g.entries.push ⟨node, none⟩, version := g.version + 1 })

/-- The graph of some nodes. -/
def ofNodes (nodes : List Node) : Graph := nodes.foldl (fun g n => (g.push n).2) (.empty 1)

/-- Changes the node at a position; references to it now mean the new node. -/
def replace (g : Graph) (id : NodeId) (node : Node) : Graph :=
  if id.index < g.size then
    { g with
      entries := g.entries.modify id.index fun e => { e with node := node }
      version := g.version + 1 }
  else g

/-- Names a node in messages. -/
def setLabel (g : Graph) (id : NodeId) (label : String) : Graph :=
  { g with entries := g.entries.modify id.index fun e => { e with label := some label } }

/-- Gives a loop its body; nothing else of any node changes, and the version stays. -/
def closeLoop (g : Graph) (loop body : NodeId) : Graph :=
  { g with
    entries := g.entries.modify loop.index fun e =>
      match e.node with
      | .loop params _ => { e with node := .loop params (some body) }
      | _ => e }

/-- Appends a native function. -/
def addFunction (g : Graph) (f : NativeFunction) : FunctionId × Graph :=
  (⟨g.functions.size⟩,
    { g with functions := g.functions.push f, version := g.version + 1 })

/-! ### Small facts -/

@[simp] theorem size_push (g : Graph) (n : Node) : (g.push n).2.size = g.size + 1 := by
  simp [push, size]

@[simp] theorem version_push (g : Graph) (n : Node) : (g.push n).2.version = g.version + 1 := rfl

@[simp] theorem get?_push_new (g : Graph) (n : Node) : (g.push n).2.get? (g.push n).1 = some n := by
  simp [push, get?, size]

theorem get?_eq_none_iff {g : Graph} {id : NodeId} : g.get? id = none ↔ g.size ≤ id.index := by
  simp [get?, size]

@[simp] theorem size_setLabel (g : Graph) (id : NodeId) (l : String) :
    (g.setLabel id l).size = g.size := by
  simp [setLabel, size]

@[simp] theorem get?_setLabel (g : Graph) (id id' : NodeId) (l : String) :
    (g.setLabel id l).get? id' = g.get? id' := by
  simp only [get?, setLabel, Array.getElem?_modify]
  split
  · next h =>
    simp only [Option.map_map]
    congr 1
  · rfl

end Graph

/-- Several graphs, each with a number of its own. -/
structure Workspace where
  graphs : Array Graph
  nextUid : Nat

namespace Workspace

/-- The number of the first graph. -/
def firstUid : Nat := 1

/-- The workspace without graphs. -/
def empty : Workspace := ⟨#[], firstUid⟩

/-- Adds a graph without nodes. -/
def create (w : Workspace) : Nat × Workspace :=
  (w.graphs.size, ⟨w.graphs.push (Graph.empty w.nextUid), w.nextUid + 1⟩)

/-- Adds a copy of a graph under a number of its own. -/
def copy (w : Workspace) (g : Graph) : Nat × Workspace :=
  (w.graphs.size, ⟨w.graphs.push { g with uid := w.nextUid }, w.nextUid + 1⟩)

/-- The graph at a position. -/
def get? (w : Workspace) (i : Nat) : Option Graph := w.graphs[i]?

/-- Puts a changed graph back to its position. -/
def set (w : Workspace) (i : Nat) (g : Graph) : Workspace :=
  { w with graphs := w.graphs.setIfInBounds i g }

end Workspace

end ShaderGraph
