import ShaderGraph.Build.Locals
import ShaderGraph.Build.Varying
import ShaderGraph.Code.Conversion

/-!
# Generators

The steps that turn one kind of node into code need those for the nodes below. A `Generator`
holds them, and each step takes one.

* `Generator.emit` generates a node; a node that has no value gives no expression.
* `Generator.value` generates a node and brings its value to a type.
* `Generator.place` generates a node that something is assigned to.
-/

namespace ShaderGraph

/-- How nodes are generated. -/
structure Generator where
  /-- The code of a node; its statements are added to the open block. -/
  emit : NodeId → Build (Option Expr)
  /-- A place that can be assigned to, and its type. -/
  place : NodeId → Build (Expr × ValueType)

namespace Generator

open Build

/-- The value of a node as one of type `target`. -/
def value (g : Generator) (id : NodeId) (target : ValueType) : Build Expr := do
  let id ← resolve id
  located id do
    let e ← g.emit id
    let type ← typeOf id
    match e with
    | some e =>
      -- an expression of type void is no value
      if type = .void then fail (TypeError.noValue target)
      ofExcept (e.coerce type target)
    | none => fail (TypeError.noValue target)

/-- A node for its statements only. -/
def statement (g : Generator) (id : NodeId) : Build Unit := discard <| g.emit id

/-- The values of some nodes, each as one of a type. -/
def values (g : Generator) (ids : List (NodeId × ValueType)) : Build (List Expr) :=
  ids.mapM fun v => g.value v.1 v.2

end Generator

end ShaderGraph
