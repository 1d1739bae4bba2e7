import ShaderGraph.Error.Cause

/-!
# Build errors

A refused build reports its cause, the node and stage it arose at, and the nodes that were
being built around it.

* `BuildError.located` records that an error passed through a node on its way out.
* `BuildError.display` is the whole report in one line.
-/

namespace ShaderGraph

/-- A node as errors point at it. -/
structure Location where
  id : NodeId
  kind : String
  label : Option String
deriving DecidableEq, Repr

/-- The text of a location. -/
def Location.text (l : Location) : String :=
  l.kind ++ toString l.id ++
    match l.label with
    | some label => s!" `{label}`"
    | none => ""

/-- A refused build. -/
structure BuildError where
  cause : Cause
  /-- The innermost node at fault. -/
  node : Option Location
  stage : Option Stage
  /-- The nodes that were being built, innermost first. -/
  trace : List Location

namespace BuildError

/-- An error that is not located yet. -/
def ofCause (c : Cause) : BuildError := ⟨c, none, none, []⟩

/-- Records that the error passed through a node in a stage. The first node is the one at
fault; a node that repeats the last one is not recorded again. -/
def located (e : BuildError) (l : Location) (stage : Stage) : BuildError :=
  { e with
    node := e.node.or (some l)
    stage := e.stage.or (some stage)
    trace := if e.trace.getLast? = some l then e.trace else e.trace ++ [l] }

/-- Where the error arose. -/
def site (e : BuildError) : String :=
  match e.node, e.stage with
  | some l, some s => s!" (at {l.text}, {s.name} stage)"
  | some l, none => s!" (at {l.text})"
  | none, some s => s!" ({s.name} stage)"
  | none, none => ""

/-- The kind of an error. -/
def kind (e : BuildError) : ErrorKind := e.cause.kind

/-- The wording of an error. -/
def message (e : BuildError) : String := e.cause.message

/-- The whole report. -/
def display (e : BuildError) : String := e.kind.heading ++ e.message ++ e.site

/-! ### Small facts -/

@[simp] theorem cause_located (e : BuildError) (l : Location) (s : Stage) :
    (e.located l s).cause = e.cause := rfl

theorem node_located (e : BuildError) (l : Location) (s : Stage) :
    (e.located l s).node = some (e.node.getD l) := by
  cases h : e.node <;> simp [located, h]

end BuildError

end ShaderGraph
