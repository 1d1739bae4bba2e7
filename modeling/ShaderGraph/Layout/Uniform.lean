import ShaderGraph.ValueType

/-!
# Uniform buffers

How the members of a uniform block lie in memory, and the bytes of their defaults.

* `layOut` gives each member the next offset that its alignment allows; a block is a multiple
  of 16 bytes.
* `expand` is the list of the components of a default: one value fills a vector and the
  diagonal of a matrix, and what is missing is zero.
* `pack` writes the defaults into a buffer. The columns of a matrix start 16 bytes apart.
-/

namespace ShaderGraph.Layout

/-- A member of a uniform block. -/
structure Slot where
  name : String
  type : ValueType
  value : List Float32

/-- A member with its place in the block. -/
structure Placed extends Slot where
  offset : Nat
  size : Nat

/-- The least multiple of `alignment` that is not below `n`. -/
def alignUp (n alignment : Nat) : Nat := (n + alignment - 1) / alignment * alignment

/-- Alignment and size of a member. What has no place in a block takes a `vec4`. -/
def extent (t : ValueType) : Nat × Nat := t.uniformLayout.getD (16, 16)

/-- Places members one after the other from an offset on; the second part is where the last one
ends. -/
def placeFrom : Nat → List Slot → List Placed × Nat
  | offset, [] => ([], offset)
  | offset, s :: rest =>
    let (alignment, size) := extent s.type
    let start := alignUp offset alignment
    let (placed, stop) := placeFrom (start + size) rest
    (⟨s, start, size⟩ :: placed, stop)

/-- The members in their places and the size of the block. -/
def layOut (members : List Slot) : List Placed × Nat :=
  let (placed, stop) := placeFrom 0 members
  (placed, alignUp (max stop 16) 16)

/-- The components of a default. -/
def expand (t : ValueType) (value : List Float32) : List Float32 :=
  let n := t.components.toNat
  match value, t.columns with
  | [v], some columns =>
    (List.range n).map fun i => if i / columns.toNat = i % columns.toNat then v else 0
  | [v], none => List.replicate n v
  | vs, _ => (List.range n).map fun i => vs.getD i 0

/-- The four bytes of a word, least first. -/
def wordBytes (w : UInt32) : List UInt8 :=
  [w.toUInt8, (w >>> 8).toUInt8, (w >>> 16).toUInt8, (w >>> 24).toUInt8]

/-- A component as a word: a whole number that is rounded toward zero and kept in range, or the
bits of a float. -/
def componentWord (t : ValueType) (v : Float32) : UInt32 :=
  match t.scalarKind with
  | some .int => v.toInt32.toUInt32
  | some .uint => v.toUInt32
  | _ => v.toBits

/-- Where a component lies behind the offset of its member. -/
def componentOffset (t : ValueType) (i : Nat) : Nat :=
  match t.columns with
  | some columns => 16 * (i / columns.toNat) + 4 * (i % columns.toNat)
  | none => 4 * i

/-- The bytes with some of them overwritten; what does not fit inside is left out. -/
def overwrite (bytes : List UInt8) (start : Nat) (word : List UInt8) : List UInt8 :=
  if start + word.length ≤ bytes.length then
    bytes.take start ++ word ++ bytes.drop (start + word.length)
  else bytes

/-- The bytes with the default of a member written into them. -/
def packMember (bytes : List UInt8) (m : Placed) : List UInt8 :=
  (expand m.type m.value).zipIdx.foldl
    (fun bytes v =>
      overwrite bytes (m.offset + componentOffset m.type v.2)
        (wordBytes (componentWord m.type v.1)))
    bytes

/-- A buffer of `size` bytes with the defaults of its members. -/
def pack (size : Nat) (members : List Placed) : List UInt8 :=
  members.foldl packMember (List.replicate size 0)

/-! ### Small facts -/

theorem alignUp_dvd (n alignment : Nat) : alignment ∣ alignUp n alignment :=
  Nat.dvd_mul_left _ _

/-- The places of members are those of the members, in order. -/
theorem map_placeFrom (offset : Nat) (slots : List Slot) :
    (placeFrom offset slots).1.map Placed.toSlot = slots := by
  induction slots generalizing offset with
  | nil => rfl
  | cons slot rest ih => exact congrArg (slot :: ·) (ih _)

@[simp] theorem length_overwrite (bytes : List UInt8) (i : Nat) (word : List UInt8) :
    (overwrite bytes i word).length = bytes.length := by
  unfold overwrite
  split
  · simp
    omega
  · rfl

theorem length_packMember (bytes : List UInt8) (m : Placed) :
    (packMember bytes m).length = bytes.length := by
  unfold packMember
  generalize (expand m.type m.value).zipIdx = vs
  induction vs generalizing bytes with
  | nil => rfl
  | cons v vs ih => simp [ih]

/-- A packed buffer has the size that was asked for. -/
theorem length_pack (size : Nat) (members : List Placed) : (pack size members).length = size := by
  unfold pack
  have h : (List.replicate size (0 : UInt8)).length = size := by simp
  generalize List.replicate size (0 : UInt8) = bytes at h
  induction members generalizing bytes with
  | nil => exact h
  | cons m ms ih => exact ih (packMember bytes m) (by rw [length_packMember, h])

end ShaderGraph.Layout
