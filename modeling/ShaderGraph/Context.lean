import ShaderGraph.Node.Basic

/-!
# Contexts

The values that context nodes lend to the nodes below them.

* A `Frame` is what one context node lends. Its number stands for the whole sequence of context
  nodes around it: `FrameTable` gives each sequence one number.
* `lookup?` finds the innermost value of a key, together with the frames around the one that
  lends it. The value sees those frames only.
* `ContextStack` is a sequence of frames, innermost first, with the table of their numbers.
-/

namespace ShaderGraph

/-- The number of a sequence of context nodes. -/
structure FrameId where
  index : Nat
deriving DecidableEq, Repr

/-- The empty sequence. -/
def FrameId.root : FrameId := ⟨0⟩

/-- What one context node lends to the nodes below it. -/
structure Frame where
  id : FrameId
  values : List (String × NodeId)
deriving DecidableEq, Repr

namespace Frame

/-- The number of a sequence of frames. -/
def current : List Frame → FrameId
  | [] => .root
  | f :: _ => f.id

/-- The innermost value of a key, and the frames around the one that lends it. Of several
values that one frame gives a key, the last counts. -/
def lookup? (key : String) : List Frame → Option (NodeId × List Frame)
  | [] => none
  | f :: outer =>
    match f.values.reverse.lookup key with
    | some node => some (node, outer)
    | none => lookup? key outer

end Frame

/-- The numbers given to sequences of context nodes so far: each entry extends the sequence of
a number by a node. -/
structure FrameTable where
  extensions : List ((FrameId × NodeId) × FrameId)
deriving DecidableEq, Repr

namespace FrameTable

/-- The table without sequences. -/
def empty : FrameTable := ⟨[]⟩

/-- The number of a sequence extended by a node; a new sequence gets the next number. -/
def extend (t : FrameTable) (parent : FrameId) (node : NodeId) : FrameId × FrameTable :=
  match t.extensions.find? fun e => e.1 = (parent, node) with
  | some e => (e.2, t)
  | none =>
    let id : FrameId := ⟨t.extensions.length + 1⟩
    (id, ⟨t.extensions ++ [((parent, node), id)]⟩)

end FrameTable

/-- A sequence of frames, innermost first. -/
structure ContextStack where
  frames : List Frame
  table : FrameTable
deriving DecidableEq, Repr

namespace ContextStack

/-- The stack without frames. -/
def empty : ContextStack := ⟨[], .empty⟩

/-- The number of the frames together. -/
def current (s : ContextStack) : FrameId := Frame.current s.frames

/-- How many frames there are. -/
def depth (s : ContextStack) : Nat := s.frames.length

/-- Enters the frame of a context node. -/
def push (s : ContextStack) (node : NodeId) (values : List (String × NodeId)) : ContextStack :=
  let (id, table) := s.table.extend s.current node
  ⟨⟨id, values⟩ :: s.frames, table⟩

/-- Leaves the innermost frame. -/
def pop (s : ContextStack) : ContextStack := { s with frames := s.frames.tail }

/-- The innermost value of a key, and how many frames stand around the one that lends it. -/
def lookup? (s : ContextStack) (key : String) : Option (NodeId × Nat) :=
  (Frame.lookup? key s.frames).map fun r => (r.1, r.2.length)

/-- Leaves all but the outermost `depth` frames; the first part holds those that were left. -/
def truncate (s : ContextStack) (depth : Nat) : List Frame × ContextStack :=
  let removed := s.frames.length - depth
  (s.frames.take removed, { s with frames := s.frames.drop removed })

/-- Enters frames that were left. -/
def restore (s : ContextStack) (removed : List Frame) : ContextStack :=
  { s with frames := removed ++ s.frames }

/-! ### Small facts -/

@[simp] theorem depth_push (s : ContextStack) (node : NodeId) (values : List (String × NodeId)) :
    (s.push node values).depth = s.depth + 1 := by
  simp [push, depth]

@[simp] theorem frames_pop_push (s : ContextStack) (node : NodeId)
    (values : List (String × NodeId)) : (s.push node values).pop.frames = s.frames := by
  simp [push, pop]

/-- Entering again what was left gives the stack back. -/
@[simp] theorem restore_truncate (s : ContextStack) (depth : Nat) :
    (s.truncate depth).2.restore (s.truncate depth).1 = s := by
  simp [truncate, restore]

end ContextStack

end ShaderGraph
