/-!
# Kinds of build errors

The five kinds under which a refused build is reported.
-/

namespace ShaderGraph

/-- What a refused build failed on. -/
inductive ErrorKind where
  /-- Types that do not fit or cannot be found. -/
  | typeResolution
  /-- A node outside the scope or stage it is valid in. -/
  | scope
  /-- Native code that the target dialect cannot take. -/
  | dialect
  /-- Aggregates and bindings used against their layout. -/
  | bindingLayout
  /-- The structure of the graph: missing nodes, cycles, expansions without end. -/
  | graph
deriving DecidableEq, Repr

namespace ErrorKind

/-- The name of a kind. -/
def name : ErrorKind → String
  | .typeResolution => "TypeResolution"
  | .scope => "Scope"
  | .dialect => "Dialect"
  | .bindingLayout => "BindingLayout"
  | .graph => "Graph"

/-- The kind with the given name. -/
def ofName? (s : String) : Option ErrorKind :=
  [typeResolution, scope, dialect, bindingLayout, graph].find? fun k => k.name = s

/-- What a report of this kind starts with. -/
def heading : ErrorKind → String
  | .typeResolution => "type resolution error: "
  | .scope => "scope error: "
  | .dialect => "dialect error: "
  | .bindingLayout => "binding layout error: "
  | .graph => "graph error: "

end ErrorKind

end ShaderGraph
