import ShaderGraph.Error.Build
import ShaderGraph.Graph.Basic
import ShaderGraph.Native.Translation

/-!
# Hosts

What a build leaves to the program around it.

* A `Setup` is what custom nodes do when they are replaced; `Custom.setup` is what their
  descriptions say.
* A `Host` brings a setup, a translator for the functions of the other dialect and a validator
  for the programs.
-/

namespace ShaderGraph

/-- Why a custom node refuses to be replaced, and where it says that this arose. -/
structure Refusal where
  kind : ErrorKind
  message : String
  node : Option Location := none
  stage : Option Stage := none
  trace : List Location := []

/-- A refusal as a build reports it. -/
def Refusal.error (r : Refusal) : BuildError := ⟨.custom r.kind r.message, r.node, r.stage, r.trace⟩

/-- What a custom node does when it is replaced: the node that takes its place or why there is
none, and the graph after that. -/
abbrev Setup := Custom → Graph → Except Refusal NodeId × Graph

/-- What a build leaves to the program around it. What is refused is refused with a report. -/
structure Host where
  setup : Setup
  translate : Native.Translator
  /-- Checks the source of a stage. -/
  validate : Dialect → Stage → String → Except String Unit

/-- Adds the nodes that a description brings. -/
def Custom.addNodes (g : Graph) (base : Nat) (nodes : List (NodeOf Ref Custom × Option String)) :
    Graph :=
  nodes.foldl
    (fun g n =>
      let (id, g) := g.push (n.1.map (Ref.resolve base))
      match n.2 with
      | some label => g.setLabel id label
      | none => g)
    g

/-- What the description of a custom node says. -/
def Custom.setup : Setup := fun c g =>
  match c.expansion with
  | .refuse kind message => (.error { kind := kind, message := message }, g)
  | .again => let (id, g) := g.push (.custom c); (.ok id, g)
  | .subgraph nodes result => (.ok (result.resolve g.size), addNodes g g.size nodes)

/-- Custom nodes do what their descriptions say, nothing can be translated and every source is
accepted. -/
def Host.plain : Host where
  setup := Custom.setup
  translate _ _ := .error "there is no translator"
  validate _ _ _ := .ok ()

end ShaderGraph
