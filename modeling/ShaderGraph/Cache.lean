import ShaderGraph.Context
import ShaderGraph.OrderedMap

/-!
# Caches

What a build knows about the nodes it met, kept apart by cache scope and stage.

* A scope belongs to a cache node that was met inside another scope. `scopeFor` gives each such
  pair one scope.
* A scope that shares with its parent keeps nothing of its own: `owner` is the scope where its
  records are kept.
* A `CacheRecord` counts how often a node is referred to and holds the name that its value was
  bound to.
-/

namespace ShaderGraph

/-- A cache scope. -/
structure ScopeId where
  index : Nat
deriving DecidableEq, Repr

/-- The scope of a stage as a whole. -/
def ScopeId.root : ScopeId := ⟨0⟩

/-- A block of statements. -/
structure BlockId where
  index : Nat
deriving DecidableEq, Repr

/-- The name that a value was bound to. -/
structure BoundName where
  name : String
  /-- The block of the declaration. -/
  block : BlockId
  /-- The context under which the value was computed; a variable belongs to all. -/
  frame : Option FrameId
deriving DecidableEq, Repr

/-- What is known about a node. -/
structure CacheRecord where
  usage : Nat
  bound : Option BoundName
deriving DecidableEq, Repr

instance : Inhabited CacheRecord := ⟨0, none⟩

/-- Where a record is kept. -/
structure CacheKey where
  scope : ScopeId
  node : NodeId
  stage : Option Stage
deriving DecidableEq, Repr

/-- What a build knows about the nodes it met. -/
structure NodeCache where
  /-- For each scope, the one it shares with. -/
  parents : List (Option ScopeId)
  /-- The scope of a cache node inside a scope. -/
  derived : OrderedMap (ScopeId × NodeId) ScopeId
  records : OrderedMap CacheKey CacheRecord

namespace NodeCache

/-- The cache with the root scope and no records. -/
def empty : NodeCache := ⟨[none], .empty, .empty⟩

/-- The scope of a cache node inside a scope. -/
def scopeFor (c : NodeCache) (enclosing : ScopeId) (node : NodeId) (shares : Bool) :
    ScopeId × NodeCache :=
  match c.derived.get? (enclosing, node) with
  | some id => (id, c)
  | none =>
    let id : ScopeId := ⟨c.parents.length⟩
    let parent := if shares then some enclosing else none
    (id, { c with
      parents := c.parents ++ [parent]
      derived := c.derived.put (enclosing, node) id })

/-- Follows at most `fuel` parents. -/
def ownerIn (parents : List (Option ScopeId)) : Nat → ScopeId → ScopeId
  | 0, s => s
  | fuel + 1, s =>
    match parents[s.index]? with
    | some (some parent) => ownerIn parents fuel parent
    | _ => s

/-- The scope where the records of a scope are kept. A parent is older than its scope, so there
are fewer parents to follow than scopes. -/
def owner (c : NodeCache) (s : ScopeId) : ScopeId := ownerIn c.parents c.parents.length s

/-- Where the record of a node is kept. -/
def key (c : NodeCache) (s : ScopeId) (node : NodeId) (stage : Option Stage) : CacheKey :=
  ⟨c.owner s, node, stage⟩

/-- The record of a node. -/
def get? (c : NodeCache) (s : ScopeId) (node : NodeId) (stage : Option Stage) :
    Option CacheRecord :=
  c.records.get? (c.key s node stage)

/-- Changes the record of a node, starting from an empty one. -/
def update (c : NodeCache) (s : ScopeId) (node : NodeId) (stage : Option Stage)
    (f : CacheRecord → CacheRecord) : NodeCache :=
  { c with
    records := c.records.put (c.key s node stage) (f ((c.get? s node stage).getD ⟨0, none⟩)) }

/-- How often a node is referred to. -/
def usage (c : NodeCache) (s : ScopeId) (node : NodeId) (stage : Option Stage) : Nat :=
  match c.get? s node stage with
  | some r => r.usage
  | none => 0

/-- Counts a reference to a node. -/
def count (c : NodeCache) (s : ScopeId) (node : NodeId) (stage : Option Stage) : NodeCache :=
  c.update s node stage fun r => { r with usage := r.usage + 1 }

/-- Binds the value of a node to a name. -/
def bind (c : NodeCache) (s : ScopeId) (node : NodeId) (stage : Option Stage) (b : BoundName) :
    NodeCache :=
  c.update s node stage fun r => { r with bound := some b }

/-! ### Small facts -/

theorem get?_update (c : NodeCache) (s : ScopeId) (node : NodeId) (stage : Option Stage)
    (f : CacheRecord → CacheRecord) :
    (c.update s node stage f).get? s node stage =
      some (f ((c.get? s node stage).getD ⟨0, none⟩)) := by
  show (c.records.put (c.key s node stage) _).get? (c.key s node stage) = _
  rw [OrderedMap.get?_put, if_pos rfl]

theorem usage_count (c : NodeCache) (s : ScopeId) (node : NodeId) (stage : Option Stage) :
    (c.count s node stage).usage s node stage = c.usage s node stage + 1 := by
  simp only [count, usage, get?_update]
  cases c.get? s node stage <;> rfl

end NodeCache

end ShaderGraph
