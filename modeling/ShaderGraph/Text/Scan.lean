import ShaderGraph.Text.Blank

/-!
# Scanning texts

Cutting a text at a character, at a word, or at the bracket that closes another.

* `cutAt` splits around the first item that satisfies a test.
* `dropFront?` and `dropBack?` take a given word off an end of a text.
* `takeBracket` reads up to the bracket that closes the open ones.
* `splitTopLevel` splits at the commas outside `<...>` and `(...)`.
* `readWord32?` reads a number below `2 ^ 32` written in decimal digits.
-/

namespace ShaderGraph.Text

/-- What stands before and after the first item that satisfies `p`. -/
def cutAt {α : Type} (p : α → Bool) : List α → Option (List α × List α)
  | [] => none
  | x :: xs => if p x then some ([], xs) else (cutAt p xs).map fun r => (x :: r.1, r.2)

/-- What follows `word` in a text that starts with it. -/
def dropFront? : List Char → List Char → Option (List Char)
  | [], cs => some cs
  | _ :: _, [] => none
  | w :: word, c :: cs => if w = c then dropFront? word cs else none

/-- What precedes `word` in a text that ends with it. -/
def dropBack? (word cs : List Char) : Option (List Char) :=
  (dropFront? word.reverse cs.reverse).map List.reverse

/-- What follows the first occurrence of `word`. -/
def afterWord? (word : List Char) : List Char → Option (List Char)
  | [] => dropFront? word []
  | c :: cs =>
    match dropFront? word (c :: cs) with
    | some rest => some rest
    | none => afterWord? word cs

/-- Inside `depth` open brackets: what stands before the bracket that closes the outermost
one, and what stands after it. -/
def takeBracket {α : Type} (view : α → Char) (opening closing : Char) :
    Nat → List α → Option (List α × List α)
  | _, [] => none
  | depth, x :: xs =>
    if view x = opening then
      (takeBracket view opening closing (depth + 1) xs).map fun r => (x :: r.1, r.2)
    else if view x = closing then
      if depth ≤ 1 then some ([], xs)
      else (takeBracket view opening closing (depth - 1) xs).map fun r => (x :: r.1, r.2)
    else (takeBracket view opening closing depth xs).map fun r => (x :: r.1, r.2)

/-- The pieces between the commas at bracket depth zero. -/
def topLevelPieces : Int → List Char → List (List Char)
  | _, [] => [[]]
  | depth, c :: cs =>
    if c = ',' ∧ depth = 0 then [] :: topLevelPieces depth cs
    else
      let depth' :=
        if c = '<' ∨ c = '(' then depth + 1 else if c = '>' ∨ c = ')' then depth - 1 else depth
      match topLevelPieces depth' cs with
      | [] => [[c]]
      | piece :: pieces => (c :: piece) :: pieces

/-- The trimmed pieces between the commas outside `<...>` and `(...)`; a blank last piece
does not count. -/
def splitTopLevel (cs : List Char) : List (List Char) :=
  let pieces := (topLevelPieces 0 cs).map trim
  if pieces.getLast? = some [] then pieces.dropLast else pieces

/-- The value of a digit. -/
def digitValue (c : Char) : Nat := c.toNat - '0'.toNat

/-- The number written by a nonempty run of decimal digits. -/
def readDigits? : List Char → Option Nat
  | [] => none
  | cs => if cs.all Char.isDigit then some (cs.foldl (fun n c => 10 * n + digitValue c) 0) else none

/-- A number below `2 ^ 32` in decimal digits, with an optional `+` in front. -/
def readWord32? (cs : List Char) : Option UInt32 :=
  let digits := match cs with
    | '+' :: rest => rest
    | _ => cs
  match readDigits? digits with
  | some n => if n < UInt32.size then some (UInt32.ofNat n) else none
  | none => none

/-! ### Small facts -/

theorem cutAt_eq_some {α : Type} {p : α → Bool} {xs before after : List α}
    (h : cutAt p xs = some (before, after)) :
    (∀ x ∈ before, p x = false) ∧ ∃ x, p x = true ∧ xs = before ++ x :: after := by
  induction xs generalizing before after with
  | nil => simp [cutAt] at h
  | cons x xs ih =>
    unfold cutAt at h
    split at h
    · next hx =>
      obtain ⟨rfl, rfl⟩ := Prod.mk.inj (Option.some.inj h)
      exact ⟨by simp, x, hx, rfl⟩
    · next hx =>
      obtain ⟨⟨b, a⟩, hr, hba⟩ := Option.map_eq_some_iff.1 h
      obtain ⟨rfl, rfl⟩ := Prod.mk.inj hba
      obtain ⟨hb, y, hy, rfl⟩ := ih hr
      refine ⟨?_, y, hy, rfl⟩
      intro z hz
      rcases List.mem_cons.1 hz with rfl | hz
      · simpa using hx
      · exact hb z hz

theorem dropFront?_eq_some_iff {word cs rest : List Char} :
    dropFront? word cs = some rest ↔ cs = word ++ rest := by
  induction word generalizing cs with
  | nil => simp [dropFront?, eq_comm]
  | cons w word ih =>
    cases cs with
    | nil => simp [dropFront?]
    | cons c cs =>
      by_cases h : w = c
      · simp [dropFront?, h, ih]
      · simp [dropFront?, h, Ne.symm h]

end ShaderGraph.Text
