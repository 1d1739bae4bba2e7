import ShaderGraph.Name.Identifier

/-!
# Name tables

The names that are taken in one scope.

* `claim` takes a name near a preferred one: the identifier itself or, where that is taken,
  the first free one among `name_1`, `name_2`, …
* `claimNumbered` takes the first free name among `stem0`, `stem1`, … from a counter on.
* Both also avoid the names of an enclosing table.

The search for a free name ends because only finitely many names are taken; the number of
names bounds it.
-/

namespace ShaderGraph

/-- The names that are taken in one scope. -/
structure NameTable where
  names : List String
deriving DecidableEq, Repr

namespace NameTable

/-- The table without names. -/
def empty : NameTable := ⟨[]⟩

instance : Inhabited NameTable := ⟨empty⟩

/-- Whether a name is taken. -/
def isUsed (t : NameTable) (name : String) : Bool := t.names.contains name

/-- Takes a name whether or not it is taken. -/
def reserve (t : NameTable) (name : String) : NameTable := ⟨name :: t.names⟩

/-- Frees a name. -/
def release (t : NameTable) (name : String) : NameTable := ⟨t.names.filter (· ≠ name)⟩

/-- The `n`-th name near `base`; the first is `base` itself. -/
def suffixed (base : String) : Nat → String
  | 0 => base
  | n + 1 => base ++ "_" ++ toString (n + 1)

/-- The first number from `n` on whose candidate is free, trying at most `fuel` of them. -/
def firstFree (taken : String → Bool) (candidate : Nat → String) : Nat → Nat → Nat
  | 0, n => n
  | fuel + 1, n => if taken (candidate n) then firstFree taken candidate fuel (n + 1) else n

/-- Whether a name is taken in the table or in the enclosing one. -/
def isTaken (t outer : NameTable) (name : String) : Bool := t.isUsed name || outer.isUsed name

/-- One more candidate than there are names: one of them is free. -/
def candidates (t outer : NameTable) : Nat := t.names.length + outer.names.length + 1

/-- Takes a free name near the preferred one. -/
def claim (t outer : NameTable) (preferred : String) : String × NameTable :=
  let base := Name.sanitize preferred
  let n := firstFree (t.isTaken outer) (suffixed base) (t.candidates outer) 0
  (suffixed base n, t.reserve (suffixed base n))

/-- Takes the first free name among the numbered ones from `counter` on; the counter moves
past its number. -/
def claimNumbered (t outer : NameTable) (stem : String) (counter : Nat) :
    String × Nat × NameTable :=
  let candidate (n : Nat) := stem ++ toString n
  let n := firstFree (t.isTaken outer) candidate (t.candidates outer) counter
  (candidate n, n + 1, t.reserve (candidate n))

/-! ### Small facts -/

@[simp] theorem isUsed_reserve (t : NameTable) (name other : String) :
    (t.reserve name).isUsed other = (other == name || t.isUsed other) := by
  simp [reserve, isUsed, Bool.beq_eq_decide_eq]

@[simp] theorem isUsed_release (t : NameTable) (name other : String) :
    (t.release name).isUsed other = (other != name && t.isUsed other) := by
  by_cases h : other = name <;> simp [release, isUsed, h]

end NameTable

end ShaderGraph
