import Mathlib.Data.List.Basic
import ShaderGraph.Text.Scan

/-!
# Scanners on joined texts

What the scanners find in a text that was put together from parts.

* `excess` counts the brackets of one kind that are still open at the end of a text;
  `Balanced` texts close what they open. `takeBracket` reads exactly a balanced text.
* `nesting` counts angle brackets and parentheses together; in a text that is `Whole` every
  comma is nested. `topLevelPieces` gives back the whole texts that were joined by commas.
* `splitOn` and `words` give back what was joined by a separator.
* A number reads back from its digits (`readWord32?_digits`).
-/

namespace ShaderGraph.Text

/-! ### Blanks -/

/-- A text without blanks at its ends. -/
def Trimmed (cs : List Char) : Prop := trim cs = cs

instance (cs : List Char) : Decidable (Trimmed cs) := inferInstanceAs (Decidable (_ = _))

/-- A text without any blank. -/
def Solid (cs : List Char) : Prop := ∀ c ∈ cs, isBlank c = false

instance (cs : List Char) : Decidable (Solid cs) :=
  List.decidableBAll (fun c => isBlank c = false) cs

theorem trimRight_of_getLast? {cs : List Char} (h : ∀ c ∈ cs.getLast?, isBlank c = false) :
    trimRight cs = cs := by
  induction cs with
  | nil => rfl
  | cons c cs ih =>
    cases cs with
    | nil => simp [trimRight, h c (by simp)]
    | cons d ds =>
      rw [trimRight, ih fun e he => h e (by simpa [List.getLast?_cons_cons] using he)]

/-- A text whose first and last characters are no blanks. -/
theorem trimmed_of_ends {cs : List Char} (hfirst : ∀ c ∈ cs.head?, isBlank c = false)
    (hlast : ∀ c ∈ cs.getLast?, isBlank c = false) : Trimmed cs := by
  have hleft : trimLeft cs = cs := by
    cases cs with
    | nil => rfl
    | cons c cs => simp [trimLeft, hfirst c (by simp)]
  rw [Trimmed, trim, hleft, trimRight_of_getLast? hlast]

theorem getLast?_trimRight (cs : List Char) : ∀ c ∈ (trimRight cs).getLast?, isBlank c = false := by
  induction cs with
  | nil => simp
  | cons c cs ih =>
    unfold trimRight
    cases htrim : trimRight cs with
    | nil => by_cases hc : isBlank c = true <;> simp [hc]
    | cons d ds =>
      rw [htrim] at ih
      simpa [List.getLast?_cons_cons] using ih

/-- A trimmed text does not end with a blank. -/
theorem Trimmed.getLast? {cs : List Char} (h : Trimmed cs) :
    ∀ c ∈ cs.getLast?, isBlank c = false := by
  rw [← show trimRight (trimLeft cs) = cs from h]
  exact getLast?_trimRight _

theorem Solid.trimmed {cs : List Char} (h : Solid cs) : Trimmed cs :=
  trimmed_of_ends (fun c hc => h c (List.mem_of_mem_head? hc))
    (fun c hc => h c (List.mem_of_getLast? hc))

/-- Behind a trimmed text stood blanks. -/
theorem trimRight_append_blanks (cs : List Char) :
    ∃ bs, cs = trimRight cs ++ bs ∧ ∀ b ∈ bs, isBlank b = true := by
  induction cs with
  | nil => exact ⟨[], rfl, by simp⟩
  | cons c cs ih =>
    obtain ⟨bs, hbs, hblank⟩ := ih
    unfold trimRight
    cases htrim : trimRight cs with
    | nil =>
      rw [htrim, List.nil_append] at hbs
      subst hbs
      by_cases hc : isBlank c = true
      · exact ⟨c :: cs, by simp [hc], by simpa [hc] using hblank⟩
      · exact ⟨cs, by simp [hc], hblank⟩
    | cons d ds =>
      rw [htrim] at hbs
      exact ⟨bs, by simp [hbs], hblank⟩

theorem mem_of_mem_trim {cs : List Char} {c : Char} (h : c ∈ trim cs) : c ∈ cs := by
  obtain ⟨bs, hbs, -⟩ := trimRight_append_blanks (trimLeft cs)
  refine List.dropWhile_subset (isBlank ·) ?_
  show c ∈ trimLeft cs
  rw [hbs]
  exact List.mem_append_left _ h

theorem trimRight_concat_blank {c : Char} (cs : List Char) (h : isBlank c = true) :
    trimRight (cs ++ [c]) = trimRight cs := by
  induction cs with
  | nil => simp [trimRight, h]
  | cons d ds ih => simp only [List.cons_append, trimRight, ih]

/-- A blank in front does not matter. -/
theorem trim_cons_blank {c : Char} (cs : List Char) (h : isBlank c = true) :
    trim (c :: cs) = trim cs := by
  simp [trim, trimLeft, h]

/-- A blank at the end does not matter. -/
theorem trim_concat_blank {c : Char} (cs : List Char) (h : isBlank c = true) :
    trim (cs ++ [c]) = trim cs := by
  unfold trim trimLeft
  rw [List.dropWhile_append]
  cases hcs : cs.dropWhile isBlank with
  | nil => simp [h]
  | cons d ds => simpa using trimRight_concat_blank (d :: ds) h

/-- The characters of joined items. -/
theorem mem_of_mem_intercalate {items : List (List Char)} {c : Char}
    (h : c ∈ [',', ' '].intercalate items) : c = ',' ∨ c = ' ' ∨ ∃ i ∈ items, c ∈ i := by
  induction items with
  | nil => simp at h
  | cons item items ih =>
    cases items with
    | nil => exact .inr (.inr ⟨item, by simp, by simpa using h⟩)
    | cons next items =>
      simp only [List.intercalate_cons_cons, List.mem_append, List.mem_cons, List.not_mem_nil,
        or_false] at h
      rcases h with (h | h | h) | h
      · exact .inr (.inr ⟨item, by simp, h⟩)
      · exact .inl h
      · exact .inr (.inl h)
      · obtain h | h | ⟨i, hi, h⟩ := ih h
        · exact .inl h
        · exact .inr (.inl h)
        · exact .inr (.inr ⟨i, List.mem_cons_of_mem _ hi, h⟩)

/-- Items joined by a comma and a blank, the first of which starts and all of which end with
characters that are no blanks. -/
theorem trimmed_intercalate {item : List Char} {items : List (List Char)}
    (hfirst : ∀ c ∈ item.head?, isBlank c = false)
    (hlast : ∀ i ∈ item :: items, i ≠ [] ∧ ∀ c ∈ i.getLast?, isBlank c = false) :
    Trimmed ([',', ' '].intercalate (item :: items)) := by
  have hne : item ≠ [] := (hlast item (by simp)).1
  have hhead : ([',', ' '].intercalate (item :: items)).head? = item.head? := by
    cases items with
    | nil => simp
    | cons next items =>
      rw [List.intercalate_cons_cons, List.append_assoc, List.head?_append_of_ne_nil _ hne]
  refine trimmed_of_ends (by rwa [hhead]) ?_
  clear hfirst hhead hne
  induction items generalizing item with
  | nil => simpa using (hlast item (by simp)).2
  | cons next items ih =>
    have hrest : ∀ c ∈ ([',', ' '].intercalate (next :: items)).getLast?, isBlank c = false :=
      ih fun i hi => hlast i (List.mem_cons_of_mem _ hi)
    have hnonempty : [',', ' '].intercalate (next :: items) ≠ [] := by
      have hnext := (hlast next (by simp)).1
      cases items with
      | nil => simpa using hnext
      | cons _ _ => simp [hnext]
    rwa [List.intercalate_cons_cons, List.getLast?_append_of_ne_nil _ hnonempty]

/-! ### Cutting at an item -/

theorem cutAt_eq_none_iff {α : Type} {p : α → Bool} {xs : List α} :
    cutAt p xs = none ↔ ∀ x ∈ xs, p x = false := by
  induction xs with
  | nil => simp [cutAt]
  | cons x xs ih => cases hx : p x <;> simp [cutAt, hx, ih]

theorem cutAt_append {α : Type} {p : α → Bool} {xs : List α} {x : α} (ys : List α)
    (h : ∀ y ∈ xs, p y = false) (hx : p x = true) :
    cutAt p (xs ++ x :: ys) = some (xs, ys) := by
  induction xs with
  | nil => simp [cutAt, hx]
  | cons z zs ih =>
    simp [cutAt, h z (by simp), ih fun y hy => h y (by simp [hy])]

theorem cutAt_eq_some_iff {α : Type} {p : α → Bool} {xs before after : List α} :
    cutAt p xs = some (before, after) ↔
      (∀ x ∈ before, p x = false) ∧ ∃ x, p x = true ∧ xs = before ++ x :: after := by
  refine ⟨cutAt_eq_some, ?_⟩
  rintro ⟨hbefore, x, hx, rfl⟩
  exact cutAt_append after hbefore hx

/-! ### Taking words off the ends -/

theorem dropFront?_append (word cs : List Char) : dropFront? word (word ++ cs) = some cs :=
  dropFront?_eq_some_iff.2 rfl

theorem dropBack?_eq_some_iff {word cs rest : List Char} :
    dropBack? word cs = some rest ↔ cs = rest ++ word := by
  simp only [dropBack?, Option.map_eq_some_iff, dropFront?_eq_some_iff]
  constructor
  · rintro ⟨r, hr, rfl⟩
    simpa using congrArg List.reverse hr
  · rintro rfl
    exact ⟨rest.reverse, by simp, by simp⟩

theorem dropBack?_append (word cs : List Char) : dropBack? word (cs ++ word) = some cs :=
  dropBack?_eq_some_iff.2 rfl

/-! ### Brackets of one kind -/

/-- How many more brackets of a kind a text opens than it closes. -/
def excess (opening closing : Char) (cs : List Char) : Int :=
  cs.count opening - cs.count closing

/-- A text that closes each bracket it opens and no other. -/
structure Balanced (opening closing : Char) (cs : List Char) : Prop where
  /-- No bracket is closed before it was opened. -/
  opened : ∀ front, front <+: cs → 0 ≤ excess opening closing front
  /-- None is left open. -/
  closed : excess opening closing cs = 0

section Excess

variable {opening closing : Char}

instance (cs : List Char) : Decidable (Balanced opening closing cs) :=
  decidable_of_iff ((∀ n ≤ cs.length, 0 ≤ excess opening closing (cs.take n)) ∧
      excess opening closing cs = 0)
    ⟨fun h => ⟨fun front hf => by
        rw [List.prefix_iff_eq_take.1 hf]
        exact h.1 _ hf.length_le, h.2⟩,
      fun h => ⟨fun n _ => h.opened _ (List.take_prefix n cs), h.closed⟩⟩

@[simp] theorem excess_nil : excess opening closing [] = 0 := rfl

theorem excess_append (as bs : List Char) :
    excess opening closing (as ++ bs) = excess opening closing as + excess opening closing bs := by
  simp only [excess, List.count_append]
  omega

theorem excess_cons (c : Char) (cs : List Char) :
    excess opening closing (c :: cs) = excess opening closing [c] + excess opening closing cs :=
  excess_append [c] cs

theorem excess_opening (h : opening ≠ closing) : excess opening closing [opening] = 1 := by
  simp [excess, h]

theorem excess_closing (h : opening ≠ closing) : excess opening closing [closing] = -1 := by
  simp [excess, h.symm]

theorem excess_other {c : Char} (ho : c ≠ opening) (hc : c ≠ closing) :
    excess opening closing [c] = 0 := by
  simp [excess, ho, hc]

/-- A text without such brackets is balanced. -/
theorem Balanced.of_notMem {cs : List Char} (ho : opening ∉ cs) (hc : closing ∉ cs) :
    Balanced opening closing cs := by
  have key : ∀ front, front <+: cs → excess opening closing front = 0 := by
    intro front hf
    have h₁ : front.count opening = 0 :=
      List.count_eq_zero.2 fun h => ho (hf.subset h)
    have h₂ : front.count closing = 0 :=
      List.count_eq_zero.2 fun h => hc (hf.subset h)
    simp [excess, h₁, h₂]
  exact ⟨fun front hf => Int.le_of_eq (key front hf).symm, key cs List.prefix_rfl⟩

theorem Balanced.append {as bs : List Char} (ha : Balanced opening closing as)
    (hb : Balanced opening closing bs) : Balanced opening closing (as ++ bs) := by
  refine ⟨fun front ⟨back, e⟩ => ?_, by rw [excess_append, ha.closed, hb.closed]; rfl⟩
  rcases List.append_eq_append_iff.1 e with ⟨m, hm, -⟩ | ⟨m, rfl, hm⟩
  · exact ha.opened front ⟨m, hm.symm⟩
  · rw [excess_append, ha.closed, Int.zero_add]
    exact hb.opened m ⟨back, hm.symm⟩

/-- A list of balanced items is balanced. -/
theorem Balanced.intercalate {sep : List Char} (hsep : Balanced opening closing sep)
    {items : List (List Char)} (h : ∀ i ∈ items, Balanced opening closing i) :
    Balanced opening closing (sep.intercalate items) := by
  induction items with
  | nil => exact .of_notMem (by simp) (by simp)
  | cons item items ih =>
    have hitems := ih fun i hi => h i (List.mem_cons_of_mem _ hi)
    cases items with
    | nil => simpa using h item (by simp)
    | cons next items =>
      rw [List.intercalate_cons_cons]
      exact ((h item (by simp)).append hsep).append hitems

/-- Inside `depth` brackets, the bracket is found that closes the outermost one. -/
theorem takeBracket_append {α : Type} {view : α → Char} (hne : opening ≠ closing) (rest : List α)
    {last : α} (hlast : view last = closing) {inside : List α} {depth : Nat}
    (hopen : ∀ front, front <+: inside.map view → 1 ≤ depth + excess opening closing front)
    (hclosed : depth + excess opening closing (inside.map view) = 1) :
    takeBracket view opening closing depth (inside ++ last :: rest) = some (inside, rest) := by
  induction inside generalizing depth with
  | nil =>
    have hd : depth = 1 := by
      simp only [List.map_nil, excess_nil] at hclosed
      omega
    simp [takeBracket, hlast, hne.symm, hd]
  | cons x xs ih =>
    have hfront : ∀ front, front <+: xs.map view →
        1 ≤ depth + (excess opening closing [view x] + excess opening closing front) := by
      intro front hf
      rw [← excess_append]
      exact hopen _ (by simpa using hf)
    have hend : depth + (excess opening closing [view x]
        + excess opening closing (xs.map view)) = 1 := by
      rw [← excess_append]
      simpa using hclosed
    rw [List.cons_append, takeBracket]
    by_cases ho : view x = opening
    · rw [ho, excess_opening hne] at hfront hend
      rw [if_pos ho, ih (fun front hf => by have := hfront front hf; push_cast; omega)
        (by push_cast; omega)]
      rfl
    by_cases hc : view x = closing
    · rw [hc, excess_closing hne] at hfront hend
      have hd : 1 < depth := by
        have := hfront [] List.nil_prefix
        simp only [excess_nil] at this
        omega
      rw [if_neg ho, if_pos hc, if_neg (by omega),
        ih (fun front hf => by have := hfront front hf; omega) (by omega)]
      rfl
    · rw [excess_other ho hc] at hfront hend
      rw [if_neg ho, if_neg hc, ih (fun front hf => by have := hfront front hf; omega) (by omega)]
      rfl

/-- A balanced text in brackets is read up to its closing bracket. -/
theorem takeBracket_balanced {α : Type} {view : α → Char} (hne : opening ≠ closing)
    {inside : List α} (h : Balanced opening closing (inside.map view)) (rest : List α) {last : α}
    (hlast : view last = closing) :
    takeBracket view opening closing 1 (inside ++ last :: rest) = some (inside, rest) :=
  takeBracket_append hne rest hlast
    (fun front hf => by have := h.opened front hf; push_cast; omega)
    (by rw [h.closed]; rfl)

/-- What is read inside `depth` brackets leaves one open in front of the bracket that ends it. -/
theorem takeBracket_eq_some {α : Type} {view : α → Char} (hne : opening ≠ closing) {depth : Nat}
    {xs inside rest : List α} (hdepth : 1 ≤ depth)
    (h : takeBracket view opening closing depth xs = some (inside, rest)) :
    (∃ last, view last = closing ∧ xs = inside ++ last :: rest) ∧
      (∀ front, front <+: inside.map view → 1 ≤ depth + excess opening closing front) ∧
      depth + excess opening closing (inside.map view) = 1 := by
  induction xs generalizing depth inside with
  | nil => simp [takeBracket] at h
  | cons x xs ih =>
    -- what is read behind `x`, at the depth that `x` leads to
    have step : ∀ depth' : Nat, 1 ≤ depth' → (depth' : Int) = depth + excess opening closing [view x] →
        (takeBracket view opening closing depth' xs).map (fun r => (x :: r.1, r.2)) =
          some (inside, rest) →
        (∃ last, view last = closing ∧ x :: xs = inside ++ last :: rest) ∧
          (∀ front, front <+: inside.map view → 1 ≤ depth + excess opening closing front) ∧
          depth + excess opening closing (inside.map view) = 1 := by
      intro depth' hdepth' hx hr
      obtain ⟨⟨inside', rest'⟩, hread, hpair⟩ := Option.map_eq_some_iff.1 hr
      obtain ⟨rfl, rfl⟩ := Prod.mk.inj hpair
      obtain ⟨⟨last, hlast, rfl⟩, hopened, hclosed⟩ := ih hdepth' hread
      refine ⟨⟨last, hlast, rfl⟩, fun front hfront => ?_, ?_⟩
      · rw [List.map_cons] at hfront
        cases front with
        | nil => simp only [excess_nil]; omega
        | cons c front =>
          obtain ⟨rfl, htail⟩ := List.cons_prefix_cons.1 hfront
          have := hopened front htail
          rw [excess_cons]
          omega
      · dsimp only
        rw [List.map_cons, excess_cons]
        omega
    rw [takeBracket] at h
    split at h
    · next ho => exact step (depth + 1) (by omega) (by rw [ho, excess_opening hne]; simp) h
    · split at h
      · next hc =>
        split at h
        · obtain ⟨rfl, rfl⟩ := Prod.mk.inj (Option.some.inj h)
          refine ⟨⟨x, hc, rfl⟩, fun front hfront => ?_, by simp; omega⟩
          rw [List.prefix_nil.1 hfront, excess_nil]
          omega
        · exact step (depth - 1) (by omega) (by rw [hc, excess_closing hne]; omega) h
      · next ho hc => exact step depth hdepth (by rw [excess_other ho hc]; simp) h

/-- Behind a bracket, a balanced text is read and nothing else. -/
theorem takeBracket_eq_some_iff {α : Type} {view : α → Char} (hne : opening ≠ closing)
    {xs inside rest : List α} :
    takeBracket view opening closing 1 xs = some (inside, rest) ↔
      Balanced opening closing (inside.map view) ∧
        ∃ last, view last = closing ∧ xs = inside ++ last :: rest := by
  constructor
  · intro h
    obtain ⟨hlast, hopened, hclosed⟩ := takeBracket_eq_some hne (Nat.le_refl 1) h
    refine ⟨⟨fun front hfront => ?_, by push_cast at hclosed; omega⟩, hlast⟩
    have := hopened front hfront
    push_cast at this
    omega
  · rintro ⟨hbalanced, last, hlast, rfl⟩
    exact takeBracket_balanced hne hbalanced rest hlast

end Excess

/-! ### Commas outside brackets -/

/-- How many more angle brackets and parentheses a text opens than it closes. -/
def nesting (cs : List Char) : Int := excess '<' '>' cs + excess '(' ')' cs

/-- Inside `depth` brackets, each comma of the text stands in a bracket. -/
def Nested (depth : Int) (cs : List Char) : Prop :=
  ∀ front back, cs = front ++ ',' :: back → 0 < depth + nesting front

/-- A text that is a single item of a list: each of its commas stands in a bracket, and the
brackets are closed at its end. -/
structure Whole (cs : List Char) : Prop where
  nested : Nested 0 cs
  closed : nesting cs = 0

instance (depth : Int) (cs : List Char) : Decidable (Nested depth cs) :=
  decidable_of_iff (∀ n < cs.length, cs[n]? = some ',' → 0 < depth + nesting (cs.take n))
    ⟨fun h front back e => by
      have := h front.length (by simp [e]) (by simp [e])
      rwa [e, List.take_left] at this,
    fun h n hn hc => by
      obtain ⟨_, hc⟩ := List.getElem?_eq_some_iff.1 hc
      exact h _ (cs.drop (n + 1)) (by rw [← hc, List.getElem_cons_drop, List.take_append_drop])⟩

instance (cs : List Char) : Decidable (Whole cs) :=
  decidable_of_iff (Nested 0 cs ∧ nesting cs = 0) ⟨fun h => ⟨h.1, h.2⟩, fun h => ⟨h.1, h.2⟩⟩

theorem nesting_append (as bs : List Char) : nesting (as ++ bs) = nesting as + nesting bs := by
  simp only [nesting, excess_append]
  omega

@[simp] theorem nesting_nil : nesting [] = 0 := rfl

/-- What a character adds to the nesting. -/
theorem nesting_singleton (c : Char) : nesting [c] =
    if c = '<' ∨ c = '(' then 1 else if c = '>' ∨ c = ')' then -1 else 0 := by
  by_cases h₁ : c = '<'
  · subst h₁; rfl
  by_cases h₂ : c = '('
  · subst h₂; rfl
  by_cases h₃ : c = '>'
  · subst h₃; rfl
  by_cases h₄ : c = ')'
  · subst h₄; rfl
  simp [nesting, excess_other, h₁, h₂, h₃, h₄]

theorem nesting_cons (c : Char) (cs : List Char) : nesting (c :: cs) = nesting [c] + nesting cs :=
  nesting_append [c] cs

theorem Nested.of_notMem {depth : Int} {cs : List Char} (h : ',' ∉ cs) : Nested depth cs :=
  fun front back e => absurd (by simp [e]) h

theorem Nested.append {depth : Int} {as bs : List Char} (ha : Nested depth as)
    (hb : Nested (depth + nesting as) bs) : Nested depth (as ++ bs) := by
  intro front back e
  rcases List.append_eq_append_iff.1 e with ⟨m, rfl, hm⟩ | ⟨m, rfl, hm⟩
  · rw [nesting_append, ← Int.add_assoc]
    exact hb m back hm
  · cases m with
    | nil =>
      have := hb [] back (by simpa using hm.symm)
      simpa using this
    | cons c m =>
      obtain ⟨rfl, -⟩ := List.cons.inj hm
      exact ha front m rfl

theorem Nested.tail {depth : Int} {c : Char} {cs : List Char} (h : Nested depth (c :: cs)) :
    Nested (depth + nesting [c]) cs := by
  intro front back e
  rw [Int.add_assoc, ← nesting_cons]
  exact h (c :: front) back (by rw [e]; rfl)

/-- A comma at the start is in a bracket. -/
theorem Nested.not_cut {depth : Int} {c : Char} {cs : List Char} (h : Nested depth (c :: cs)) :
    ¬ (c = ',' ∧ depth = 0) := by
  rintro ⟨rfl, rfl⟩
  exact absurd (h [] cs rfl) (by decide)

/-- A text without brackets and commas is a single item. -/
theorem Whole.of_notMem {cs : List Char}
    (h : ∀ c ∈ cs, c ≠ '<' ∧ c ≠ '(' ∧ c ≠ '>' ∧ c ≠ ')' ∧ c ≠ ',') : Whole cs := by
  refine ⟨.of_notMem fun hm => (h ',' hm).2.2.2.2 rfl, ?_⟩
  have angle := Balanced.of_notMem (fun hm => (h '<' hm).1 rfl) (fun hm => (h '>' hm).2.2.1 rfl)
  have round := Balanced.of_notMem (fun hm => (h '(' hm).2.1 rfl) (fun hm => (h ')' hm).2.2.2.1 rfl)
  rw [nesting, angle.closed, round.closed]
  rfl

/-- Two items without a comma between them are one. -/
theorem Whole.append {as bs : List Char} (ha : Whole as) (hb : Whole bs) : Whole (as ++ bs) :=
  ⟨ha.nested.append (by rw [ha.closed]; exact hb.nested),
    by rw [nesting_append, ha.closed, hb.closed]; rfl⟩

/-- A character that does not end the item goes to the front of it. -/
theorem topLevelPieces_cons {c : Char} {cs piece : List Char} {pieces : List (List Char)}
    {depth : Int} (hcut : ¬ (c = ',' ∧ depth = 0))
    (h : topLevelPieces (depth + nesting [c]) cs = piece :: pieces) :
    topLevelPieces depth (c :: cs) = (c :: piece) :: pieces := by
  have hdepth : (if c = '<' ∨ c = '(' then depth + 1
      else if c = '>' ∨ c = ')' then depth - 1 else depth) = depth + nesting [c] := by
    rw [nesting_singleton]
    split_ifs <;> omega
  rw [topLevelPieces, if_neg hcut]
  simp only [hdepth, h]

/-- A text without commas outside brackets is one item. -/
theorem topLevelPieces_eq_singleton {cs : List Char} {depth : Int} (h : Nested depth cs) :
    topLevelPieces depth cs = [cs] := by
  induction cs generalizing depth with
  | nil => rfl
  | cons c cs ih => exact topLevelPieces_cons h.not_cut (ih h.tail)

/-- An item ends at the comma behind it. -/
theorem topLevelPieces_append_comma {cs : List Char} {depth : Int} (rest : List Char)
    (h : Nested depth cs) (hclosed : depth + nesting cs = 0) :
    topLevelPieces depth (cs ++ ',' :: rest) = cs :: topLevelPieces 0 rest := by
  induction cs generalizing depth with
  | nil =>
    have hd : depth = 0 := by simpa using hclosed
    simp [topLevelPieces, hd]
  | cons c cs ih =>
    exact topLevelPieces_cons h.not_cut
      (ih h.tail (by rwa [Int.add_assoc, ← nesting_cons]))

/-- The items of a list come apart at the commas between them; the blank behind a comma stays
with the next item. -/
theorem topLevelPieces_intercalate {item : List Char} {items : List (List Char)}
    (h : ∀ i ∈ item :: items, Whole i) :
    topLevelPieces 0 ([',', ' '].intercalate (item :: items)) =
      item :: items.map (' ' :: ·) := by
  induction items generalizing item with
  | nil =>
    rw [List.intercalate_singleton]
    exact topLevelPieces_eq_singleton (h item (by simp)).nested
  | cons next items ih =>
    have hitem := h item (by simp)
    have hrest : topLevelPieces 0 (' ' :: [',', ' '].intercalate (next :: items)) =
        (' ' :: next) :: items.map (' ' :: ·) :=
      topLevelPieces_cons (by simp) (ih fun i hi => h i (by simp_all))
    rw [List.intercalate_cons_cons, List.append_assoc]
    rw [show [',', ' '] ++ [',', ' '].intercalate (next :: items) =
      ',' :: ' ' :: [',', ' '].intercalate (next :: items) from rfl]
    rw [topLevelPieces_append_comma _ hitem.nested (by rw [Int.zero_add, hitem.closed]), hrest]
    rfl

/-- The items of a list read back. -/
theorem splitTopLevel_intercalate {items : List (List Char)}
    (h : ∀ i ∈ items, Whole i ∧ Trimmed i ∧ i ≠ []) :
    splitTopLevel ([',', ' '].intercalate items) = items := by
  cases items with
  | nil => rfl
  | cons item items =>
    have hpieces : (topLevelPieces 0 ([',', ' '].intercalate (item :: items))).map trim =
        item :: items := by
      rw [topLevelPieces_intercalate fun i hi => (h i hi).1, List.map_cons, List.map_map,
        (h item (by simp)).2.1]
      congr 1
      calc items.map (trim ∘ (' ' :: ·)) = items.map id :=
            List.map_congr_left fun i hi => by
              rw [Function.comp_apply, trim_cons_blank i isBlank_space]
              exact (h i (by simp [hi])).2.1
        _ = items := List.map_id items
    have hlast : (item :: items).getLast? ≠ some [] := by
      intro e
      exact (h [] (List.mem_of_getLast? e)).2.2 rfl
    simp only [splitTopLevel, hpieces, if_neg hlast]

/-! ### Splitting and words -/

section Splitting

variable {p : Char → Bool}

theorem splitOn_cons {c : Char} {cs piece : List Char} {pieces : List (List Char)}
    (hc : p c = false) (h : splitOn p cs = piece :: pieces) :
    splitOn p (c :: cs) = (c :: piece) :: pieces := by
  simp [splitOn, hc, h]

/-- A piece ends at the separator behind it. -/
theorem splitOn_append {cs : List Char} {c : Char} (rest : List Char)
    (h : ∀ d ∈ cs, p d = false) (hc : p c = true) :
    splitOn p (cs ++ c :: rest) = cs :: splitOn p rest := by
  induction cs with
  | nil => simp [splitOn, hc]
  | cons d ds ih => exact splitOn_cons (h d (by simp)) (ih fun e he => h e (by simp [he]))

/-- Pieces joined by a comma and a blank come apart at the commas; the blank stays with the
next piece. -/
theorem splitOn_intercalate {piece : List Char} {pieces : List (List Char)}
    (h : ∀ i ∈ piece :: pieces, ',' ∉ i) :
    splitOn (· == ',') ([',', ' '].intercalate (piece :: pieces)) =
      piece :: pieces.map (' ' :: ·) := by
  have hno : ∀ i ∈ piece :: pieces, ∀ d ∈ i, (d == ',') = false := by
    intro i hi d hd
    refine beq_false_of_ne ?_
    rintro rfl
    exact h i hi hd
  clear h
  induction pieces generalizing piece with
  | nil =>
    rw [List.intercalate_singleton]
    exact splitOn_eq_singleton (hno piece (by simp))
  | cons next pieces ih =>
    have hrest : splitOn (· == ',') (' ' :: [',', ' '].intercalate (next :: pieces)) =
        (' ' :: next) :: pieces.map (' ' :: ·) :=
      splitOn_cons rfl (ih fun i hi => hno i (by simp_all))
    rw [List.intercalate_cons_cons, List.append_assoc]
    rw [show [',', ' '] ++ [',', ' '].intercalate (next :: pieces) =
      ',' :: ' ' :: [',', ' '].intercalate (next :: pieces) from rfl]
    rw [splitOn_append _ (hno piece (by simp)) rfl, hrest]
    rfl

theorem words_cons_blank {c : Char} (cs : List Char) (h : isBlank c = true) :
    words (c :: cs) = words cs := by
  simp [words, splitOn, h]

/-- A word ends at the blank behind it. -/
theorem words_append {word : List Char} {c : Char} (rest : List Char) (hw : Solid word)
    (hne : word ≠ []) (hc : isBlank c = true) :
    words (word ++ c :: rest) = word :: words rest := by
  simp [words, splitOn_append rest hw hc, hne]

theorem words_eq_singleton {word : List Char} (hw : Solid word) (hne : word ≠ []) :
    words word = [word] := by
  simp [words, splitOn_eq_singleton hw, hne]

/-- Words with a blank behind each of them, and a last one, read back. -/
theorem words_flatMap {ws : List (List Char)} {last : List Char}
    (h : ∀ w ∈ ws, Solid w ∧ w ≠ []) (hlast : Solid last ∧ last ≠ []) :
    words (ws.flatMap (· ++ [' ']) ++ last) = ws ++ [last] := by
  induction ws with
  | nil => exact words_eq_singleton hlast.1 hlast.2
  | cons w ws ih =>
    have hw := h w (by simp)
    rw [List.flatMap_cons, List.append_assoc, List.append_assoc, List.singleton_append,
      words_append _ hw.1 hw.2 isBlank_space, ih fun v hv => h v (by simp [hv])]
    rfl

end Splitting

/-! ### Numbers -/

/-- A run of digits reads as its number. -/
theorem readDigits?_eq {cs : List Char} (hne : cs ≠ []) (hdigit : ∀ c ∈ cs, c.isDigit = true) :
    readDigits? cs = some (Nat.ofDigitChars 10 cs 0) := by
  unfold readDigits?
  split
  · next h => exact absurd rfl hne
  · rw [if_pos (List.all_eq_true.2 hdigit)]
    rfl

/-- A text with a character that belongs to no number is none. -/
theorem readWord32?_of_mem {cs : List Char} {c : Char} (hc : c ∈ cs) (hdigit : c.isDigit = false)
    (hplus : c ≠ '+') : readWord32? cs = none := by
  have hnone : ∀ digits : List Char, c ∈ digits → readDigits? digits = none := by
    intro digits hm
    unfold readDigits?
    split
    · rfl
    · rw [if_neg]
      intro hall
      rw [List.all_eq_true.1 hall c hm] at hdigit
      cases hdigit
  unfold readWord32?
  split
  · next rest =>
    simp only [hnone rest ((List.mem_cons.1 hc).resolve_left hplus)]
  · simp only [hnone cs hc]

theorem isDigit_of_mem_toDigits {n : Nat} {c : Char} (hc : c ∈ Nat.toDigits 10 n) :
    c.isDigit = true :=
  Nat.isDigit_of_mem_toDigits (by decide) (by decide) hc

theorem readDigits?_toDigits (n : Nat) : readDigits? (Nat.toDigits 10 n) = some n := by
  rw [readDigits?_eq Nat.toDigits_ne_nil fun _ => isDigit_of_mem_toDigits,
    Nat.ofDigitChars_toDigits (by decide) (by decide)]

/-- A number reads back from its digits. -/
theorem readWord32?_toDigits (n : UInt32) : readWord32? (Nat.toDigits 10 n.toNat) = some n := by
  unfold readWord32?
  split
  · next h =>
    have plus := isDigit_of_mem_toDigits (h ▸ List.mem_cons_self : '+' ∈ Nat.toDigits 10 n.toNat)
    exact absurd plus (by decide)
  · simp [readDigits?_toDigits, n.toNat_lt_size]

end ShaderGraph.Text
