/-!
# Ordered maps

Finite maps that keep their keys in the order in which they were first put in, which is the
order in which everything is listed later.

* `get?_put` says what a look-up finds after a value was put.
* `keys_put` says that putting a value under a key that is there moves nothing.
* `appendNew` does the same for lists without repetition.
-/

namespace ShaderGraph

/-- A finite map that keeps the order of its keys. -/
structure OrderedMap (κ α : Type) where
  entries : List (κ × α)

namespace OrderedMap

variable {κ α β : Type} [DecidableEq κ]

/-- The map without keys. -/
def empty : OrderedMap κ α := ⟨[]⟩

instance : Inhabited (OrderedMap κ α) := ⟨empty⟩

/-- The keys in order. -/
def keys (m : OrderedMap κ α) : List κ := m.entries.map Prod.fst

/-- The values in the order of their keys. -/
def values (m : OrderedMap κ α) : List α := m.entries.map Prod.snd

/-- The number of keys. -/
def size (m : OrderedMap κ α) : Nat := m.entries.length

/-- The value under a key, in a list of entries. -/
def find? (k : κ) : List (κ × α) → Option α
  | [] => none
  | (k', a) :: rest => if k = k' then some a else find? k rest

/-- The value under a key. -/
def get? (m : OrderedMap κ α) (k : κ) : Option α := find? k m.entries

/-- Whether there is a value under a key. -/
def contains (m : OrderedMap κ α) (k : κ) : Bool := (m.get? k).isSome

/-- Puts a value under a key, in a list of entries. -/
def putIn (k : κ) (a : α) : List (κ × α) → List (κ × α)
  | [] => [(k, a)]
  | (k', a') :: rest => if k = k' then (k', a) :: rest else (k', a') :: putIn k a rest

/-- Puts a value under a key; a new key goes to the end. -/
def put (m : OrderedMap κ α) (k : κ) (a : α) : OrderedMap κ α := ⟨putIn k a m.entries⟩

/-- Changes the value under a key, if there is one. -/
def modify (m : OrderedMap κ α) (k : κ) (f : α → α) : OrderedMap κ α :=
  match m.get? k with
  | some a => m.put k (f a)
  | none => m

/-- Drops a key with its value. -/
def erase (m : OrderedMap κ α) (k : κ) : OrderedMap κ α :=
  ⟨m.entries.filter fun e => e.1 ≠ k⟩

/-- The map with the given entries; of a repeated key the last value stays. -/
def ofList (entries : List (κ × α)) : OrderedMap κ α :=
  entries.foldl (fun m e => m.put e.1 e.2) empty

/-! ### Small facts -/

@[simp] theorem get?_empty (k : κ) : (empty : OrderedMap κ α).get? k = none := rfl

theorem find?_putIn (k k' : κ) (a : α) (es : List (κ × α)) :
    find? k' (putIn k a es) = if k' = k then some a else find? k' es := by
  induction es with
  | nil => simp [putIn, find?]
  | cons e rest ih =>
    obtain ⟨j, b⟩ := e
    simp only [putIn]
    split
    · next h =>
      subst h
      simp only [find?]
      split <;> rfl
    · next h =>
      simp only [find?, ih]
      split
      · next h' =>
        subst h'
        simp [Ne.symm h]
      · rfl

/-- After a value was put under `k`, a look-up finds it under `k` and what was there under any
other key. -/
theorem get?_put (m : OrderedMap κ α) (k k' : κ) (a : α) :
    (m.put k a).get? k' = if k' = k then some a else m.get? k' :=
  find?_putIn k k' a m.entries

theorem map_fst_putIn (k : κ) (a : α) (es : List (κ × α)) :
    (putIn k a es).map Prod.fst =
      if k ∈ es.map Prod.fst then es.map Prod.fst else es.map Prod.fst ++ [k] := by
  induction es with
  | nil => simp [putIn]
  | cons e rest ih =>
    obtain ⟨j, b⟩ := e
    simp only [putIn]
    split
    · next h => simp [h]
    · next h =>
      simp only [List.map_cons, ih, List.mem_cons, h, false_or]
      split <;> simp

/-- A key that is there keeps its place; a new one goes to the end. -/
theorem keys_put (m : OrderedMap κ α) (k : κ) (a : α) :
    (m.put k a).keys = if k ∈ m.keys then m.keys else m.keys ++ [k] :=
  map_fst_putIn k a m.entries

end OrderedMap

/-- Puts an item at the end of a list, unless it is there already. -/
def appendNew {α : Type} [DecidableEq α] (xs : List α) (x : α) : List α :=
  if x ∈ xs then xs else xs ++ [x]

theorem mem_appendNew {α : Type} [DecidableEq α] {xs : List α} {x y : α} :
    y ∈ appendNew xs x ↔ y ∈ xs ∨ y = x := by
  unfold appendNew
  split
  · next h =>
    constructor
    · exact Or.inl
    · rintro (h' | rfl) <;> assumption
  · simp

theorem nodup_appendNew {α : Type} [DecidableEq α] {xs : List α} {x : α} (h : xs.Nodup) :
    (appendNew xs x).Nodup := by
  unfold appendNew
  split
  · exact h
  · next hx =>
    refine List.nodup_append.2 ⟨h, by simp, ?_⟩
    rintro a ha b hb rfl
    rw [List.mem_singleton] at hb
    exact hx (hb ▸ ha)

end ShaderGraph
