/-!
# Sorting

Lists in the order of a test that says which of two items comes first.

* `sortBy` sorts by inserting one item after the other; items that neither comes before the
  other keep their order.
* `sortBy_perm` says that sorting loses nothing and adds nothing, and `pairwise_sortByNumber` that
  the numbers by which a list was sorted never go down.
-/

namespace ShaderGraph

variable {α : Type}

/-- Puts an item at its place in a sorted list, behind all that it does not come before. -/
def insertBy (before : α → α → Bool) (a : α) : List α → List α
  | [] => [a]
  | b :: rest => if before a b then a :: b :: rest else b :: insertBy before a rest

/-- The items in order. -/
def sortBy (before : α → α → Bool) (items : List α) : List α :=
  items.foldl (fun sorted a => insertBy before a sorted) []

/-- The items in the order of their numbers. -/
def sortByNumber (number : α → Nat) (items : List α) : List α :=
  sortBy (fun a b => number a < number b) items

/-! ### Small facts -/

theorem insertBy_perm (before : α → α → Bool) (a : α) (items : List α) :
    (insertBy before a items).Perm (a :: items) := by
  induction items with
  | nil => exact List.Perm.refl _
  | cons b rest ih =>
    unfold insertBy
    split
    · exact List.Perm.refl _
    · exact (ih.cons b).trans (List.Perm.swap a b rest)

theorem foldl_insertBy_perm (before : α → α → Bool) (items sorted : List α) :
    (items.foldl (fun sorted a => insertBy before a sorted) sorted).Perm (items ++ sorted) := by
  induction items generalizing sorted with
  | nil => exact List.Perm.refl _
  | cons a rest ih =>
    have h := ih (insertBy before a sorted)
    exact h.trans (((insertBy_perm before a sorted).append_left rest).trans List.perm_middle)

/-- Sorting loses nothing and adds nothing. -/
theorem sortBy_perm (before : α → α → Bool) (items : List α) :
    (sortBy before items).Perm items := by
  simpa [sortBy] using foldl_insertBy_perm before items []

@[simp] theorem mem_sortBy {before : α → α → Bool} {items : List α} {a : α} :
    a ∈ sortBy before items ↔ a ∈ items :=
  (sortBy_perm before items).mem_iff

theorem pairwise_insertBy (number : α → Nat) (a : α) {items : List α}
    (h : items.Pairwise fun b c => number b ≤ number c) :
    (insertBy (fun a b => number a < number b) a items).Pairwise
      fun b c => number b ≤ number c := by
  induction items with
  | nil => simp [insertBy]
  | cons b rest ih =>
    obtain ⟨hb, hrest⟩ := List.pairwise_cons.1 h
    unfold insertBy
    split
    · next hlt =>
      have hab : number a < number b := by simpa using hlt
      refine List.pairwise_cons.2 ⟨?_, h⟩
      intro c hc
      rcases List.mem_cons.1 hc with rfl | hc
      · exact Nat.le_of_lt hab
      · exact Nat.le_trans (Nat.le_of_lt hab) (hb c hc)
    · next hlt =>
      have hba : number b ≤ number a := by simpa using hlt
      refine List.pairwise_cons.2 ⟨?_, ih hrest⟩
      intro c hc
      rcases List.mem_cons.1 ((insertBy_perm _ a rest).mem_iff.1 hc) with rfl | hc
      · exact hba
      · exact hb c hc

theorem pairwise_foldl_insertBy (number : α → Nat) (items : List α) {sorted : List α}
    (h : sorted.Pairwise fun b c => number b ≤ number c) :
    (items.foldl (fun sorted a => insertBy (fun a b => number a < number b) a sorted)
      sorted).Pairwise fun b c => number b ≤ number c := by
  induction items generalizing sorted with
  | nil => exact h
  | cons a rest ih => exact ih (pairwise_insertBy number a h)

/-- The numbers by which a list was sorted never go down. -/
theorem pairwise_sortByNumber (number : α → Nat) (items : List α) :
    (sortByNumber number items).Pairwise fun a b => number a ≤ number b :=
  pairwise_foldl_insertBy number items List.Pairwise.nil

end ShaderGraph
