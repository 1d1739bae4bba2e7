import ShaderGraph.Node.Basic
import ShaderGraph.OrderedMap

/-!
# Update scheduling

A build only says how often the value behind a node has to be refreshed. The renderer owns the
loop: it announces each frame and each render call to a `Schedule` and asks it what is due.

* `Schedule.isDue` answers for one record and remembers that it was asked.
* `Schedule.due` is the part of some records that is due now.
-/

namespace ShaderGraph

/-- A node that the renderer has to refresh. -/
structure UpdateRecord where
  /-- The number of the graph. -/
  graph : Nat
  node : NodeId
  label : String
  cadence : Cadence
deriving DecidableEq, Repr

/-- When nodes were refreshed last. -/
structure Schedule where
  /-- Seconds since the first frame. -/
  time : Float
  /-- Seconds since the frame before. -/
  delta : Float
  /-- The number of frames. -/
  frame : Nat
  /-- The number of render calls. -/
  render : Nat
  /-- When the last frame began. -/
  last : Option Float
  /-- The frame in which a node was refreshed last. -/
  frameMarks : OrderedMap (Nat × NodeId) Nat
  /-- The render call in which a node was refreshed last. -/
  renderMarks : OrderedMap (Nat × NodeId) Nat

namespace Schedule

/-- The schedule before the first frame. -/
def start : Schedule := ⟨0, 0, 0, 0, none, .empty, .empty⟩

/-- Begins a frame at a point in time. Time never runs backward. -/
def nextFrame (s : Schedule) (now : Float) : Schedule :=
  let elapsed := now - s.last.getD now
  let delta := if 0 < elapsed then elapsed else 0
  { s with time := s.time + delta, delta := delta, frame := s.frame + 1, last := some now }

/-- Begins a render call. -/
def nextRender (s : Schedule) : Schedule := { s with render := s.render + 1 }

/-- Whether a node is refreshed for the first time since `current` began; it is marked so that
the next answer is no. -/
def mark (marks : OrderedMap (Nat × NodeId) Nat) (key : Nat × NodeId) (current : Nat) :
    Bool × OrderedMap (Nat × NodeId) Nat :=
  (marks.get? key != some current, marks.put key current)

/-- Whether a record is due: once in each frame, once in each render call, always or never, as
its cadence says. -/
def isDue (s : Schedule) (r : UpdateRecord) : Bool × Schedule :=
  match r.cadence with
  | .none => (false, s)
  | .object => (true, s)
  | .frame =>
    let (due, marks) := mark s.frameMarks (r.graph, r.node) s.frame
    (due, { s with frameMarks := marks })
  | .render =>
    let (due, marks) := mark s.renderMarks (r.graph, r.node) s.render
    (due, { s with renderMarks := marks })

/-- The records that are due, in order. -/
def due : Schedule → List UpdateRecord → List UpdateRecord × Schedule
  | s, [] => ([], s)
  | s, r :: rest =>
    let (now, s) := s.isDue r
    let (later, s) := due s rest
    (if now then r :: later else later, s)

/-! ### Small facts -/

theorem isDue_object {s : Schedule} {r : UpdateRecord} (h : r.cadence = .object) :
    s.isDue r = (true, s) := by
  simp [isDue, h]

theorem isDue_none {s : Schedule} {r : UpdateRecord} (h : r.cadence = .none) :
    s.isDue r = (false, s) := by
  simp [isDue, h]

end Schedule

end ShaderGraph
