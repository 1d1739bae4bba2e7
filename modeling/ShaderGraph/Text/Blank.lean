/-!
# Blank characters

A character is blank when Unicode gives it the property White_Space.

* `isBlank` is the property, read from the table `blankRanges`.
* `trim` drops the blanks at both ends of a text, `trimRight` those at its end.
* `words` is the list of maximal runs of characters that are not blank.

Texts are lists of characters here; `String` is met at the edges only.
-/

namespace ShaderGraph.Text

/-- The intervals of code points with the property White_Space, ends included. -/
def blankRanges : List (Nat × Nat) :=
  [(0x09, 0x0d), (0x20, 0x20), (0x85, 0x85), (0xa0, 0xa0), (0x1680, 0x1680),
   (0x2000, 0x200a), (0x2028, 0x2029), (0x202f, 0x202f), (0x205f, 0x205f), (0x3000, 0x3000)]

/-- Whether `c` has the property White_Space. -/
def isBlank (c : Char) : Bool :=
  blankRanges.any fun r => r.1 ≤ c.toNat && c.toNat ≤ r.2

/-- The text without the blanks in front. -/
def trimLeft (cs : List Char) : List Char := cs.dropWhile isBlank

/-- The text without the blanks at its end. -/
def trimRight : List Char → List Char
  | [] => []
  | c :: cs =>
    match trimRight cs with
    | [] => if isBlank c then [] else [c]
    | rest => c :: rest

/-- The text without the blanks at either end. -/
def trim (cs : List Char) : List Char := trimRight (trimLeft cs)

/-- The pieces between the characters that satisfy `p`; `n` such characters give `n + 1`
pieces. -/
def splitOn (p : Char → Bool) : List Char → List (List Char)
  | [] => [[]]
  | c :: cs =>
    if p c then [] :: splitOn p cs
    else match splitOn p cs with
      | [] => [[c]]
      | piece :: pieces => (c :: piece) :: pieces

/-- The maximal runs of characters that are not blank. -/
def words (cs : List Char) : List (List Char) :=
  (splitOn isBlank cs).filter fun w => !w.isEmpty

/-! ### Small facts -/

theorem isBlank_space : isBlank ' ' = true := by decide

@[simp] theorem trimRight_nil : trimRight [] = [] := rfl

@[simp] theorem splitOn_nil (p : Char → Bool) : splitOn p [] = [[]] := rfl

/-- A text all of whose characters fail `p` is one piece. -/
theorem splitOn_eq_singleton {p : Char → Bool} {cs : List Char} (h : ∀ c ∈ cs, p c = false) :
    splitOn p cs = [cs] := by
  induction cs with
  | nil => rfl
  | cons c cs ih =>
    have hc : p c = false := h c (by simp)
    have hcs := ih fun d hd => h d (by simp [hd])
    simp [splitOn, hc, hcs]

end ShaderGraph.Text
