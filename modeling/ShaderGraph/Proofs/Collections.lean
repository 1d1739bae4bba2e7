import Mathlib.Algebra.GroupWithZero.Nat
import Mathlib.Algebra.Order.BigOperators.Group.List
import Mathlib.Algebra.Order.Group.Nat
import Mathlib.Data.List.Nodup
import Mathlib.Data.List.Perm.Subperm
import Mathlib.Logic.Relation
import ShaderGraph.OrderedMap

/-!
# Lists and ordered maps

A list of steps has a result when each of them has one, and the results come in the order of the
steps.

A list of different things with numbers below a bound is no longer than the bound. What is found
in an ordered map depends on the entries before it only; to put a value changes at most one entry.
`NeedsFirst` says that a list has everything behind what it needs, so that nothing needs itself.
-/

namespace ShaderGraph

/-! ## Lists of steps that can fail -/

theorem bind_ok {α β ε : Type} {r : Except ε α} {f : α → Except ε β} {b : β}
    (h : (r >>= f) = .ok b) : ∃ a, r = .ok a ∧ f a = .ok b := by
  cases r with
  | error e => cases h
  | ok a => exact ⟨a, rfl, h⟩

theorem ok_of_isOk {α ε : Type} {r : Except ε α} (h : r.isOk = true) : ∃ a, r = .ok a := by
  cases r with
  | error e => cases h
  | ok a => exact ⟨a, rfl⟩

theorem ok_of_toOption {ε α : Type} {r : Except ε α} {a : α} (h : r.toOption = some a) :
    r = .ok a := by
  cases r with
  | error _ => cases h
  | ok _ => exact congrArg Except.ok (Option.some.inj h)

/-- Each result of a list of steps is that of one of them. -/
theorem mem_of_mapM_ok {α β ε : Type} {f : α → Except ε β} {xs : List α} {ys : List β}
    (h : xs.mapM f = .ok ys) {y : β} (hy : y ∈ ys) : ∃ x ∈ xs, f x = .ok y := by
  induction xs generalizing ys with
  | nil =>
    cases h
    cases hy
  | cons x rest ih =>
    rw [List.mapM_cons] at h
    obtain ⟨y', hx, h⟩ := bind_ok h
    obtain ⟨ys', hr, h⟩ := bind_ok h
    cases h
    rcases List.mem_cons.1 hy with rfl | hy
    · exact ⟨x, .head _, hx⟩
    · obtain ⟨x', hx', he⟩ := ih hr hy
      exact ⟨x', .tail _ hx', he⟩

/-- Each of the steps of a list has a result. -/
theorem ok_of_mapM_ok {α β ε : Type} {f : α → Except ε β} {xs : List α} {ys : List β}
    (h : xs.mapM f = .ok ys) {x : α} (hx : x ∈ xs) : ∃ y ∈ ys, f x = .ok y := by
  induction xs generalizing ys with
  | nil => cases hx
  | cons x' rest ih =>
    rw [List.mapM_cons] at h
    obtain ⟨y, hy, h⟩ := bind_ok h
    obtain ⟨ys', hr, h⟩ := bind_ok h
    cases h
    rcases List.mem_cons.1 hx with rfl | hx
    · exact ⟨y, .head _, hy⟩
    · obtain ⟨y', hy', he⟩ := ih hr hx
      exact ⟨y', .tail _ hy', he⟩

theorem bind_error {α β ε : Type} {r : Except ε α} {f : α → Except ε β} {e : ε}
    (h : (r >>= f) = .error e) : r = .error e ∨ ∃ a, r = .ok a ∧ f a = .error e := by
  cases r with
  | error e' =>
    cases h
    exact .inl rfl
  | ok a => exact .inr ⟨a, rfl, h⟩

theorem mapM_error {α β ε : Type} {f : α → Except ε β} {xs : List α} {e : ε}
    (h : xs.mapM f = .error e) : ∃ x ∈ xs, f x = .error e := by
  induction xs with
  | nil => cases h
  | cons x rest ih =>
    rw [List.mapM_cons] at h
    rcases bind_error h with hx | ⟨y, -, h⟩
    · exact ⟨x, .head _, hx⟩
    rcases bind_error h with hr | ⟨ys, -, h⟩
    · obtain ⟨x', hx', he⟩ := ih hr
      exact ⟨x', .tail _ hx', he⟩
    · cases h

/-- Steps whose results tell what they were taken for. -/
theorem map_of_mapM_ok {α β ε : Type} {f : α → Except ε β} {g : β → α}
    (hf : ∀ x y, f x = .ok y → g y = x) {xs : List α} {ys : List β} (h : xs.mapM f = .ok ys) :
    ys.map g = xs := by
  induction xs generalizing ys with
  | nil =>
    cases h
    rfl
  | cons x rest ih =>
    rw [List.mapM_cons] at h
    obtain ⟨y, hx, h⟩ := bind_ok h
    obtain ⟨ys', hr, h⟩ := bind_ok h
    cases h
    rw [List.map_cons, hf x y hx, ih hr]

/-- Steps that have known results. -/
theorem mapM_map_ok {α β γ ε : Type} {f : β → Except ε γ} {g : α → β} {k : α → γ} {xs : List α}
    (h : ∀ x ∈ xs, f (g x) = .ok (k x)) : (xs.map g).mapM f = .ok (xs.map k) := by
  induction xs with
  | nil => rfl
  | cons x xs ih =>
    rw [List.map_cons, List.mapM_cons, h x (by simp), ih fun y hy => h y (by simp [hy])]
    rfl

/-! ## Lists without repetition and ordered maps -/

/-- Different things with numbers below `n` are at most `n`. -/
theorem length_le_of_nodup {α : Type} {f : α → Nat} {xs : List α} {n : Nat}
    (hf : Function.Injective f) (hx : xs.Nodup) (hlt : ∀ x ∈ xs, f x < n) : xs.length ≤ n := by
  have sub : xs.map f ⊆ List.range n := by
    intro i hi
    obtain ⟨x, hx, rfl⟩ := List.mem_map.1 hi
    exact List.mem_range.2 (hlt x hx)
  have := ((hx.map hf).subperm sub).length_le
  rwa [List.length_map, List.length_range] at this

/-! ### What is needed stands first -/

/-- Each element stands in the list once, behind those that it needs. -/
inductive NeedsFirst {α : Type} (needs : α → α → Prop) : List α → Prop
  | nil : NeedsFirst needs []
  | snoc {l : List α} {a : α} (before : NeedsFirst needs l) (fresh : a ∉ l)
      (first : ∀ b, needs a b → b ∈ l) : NeedsFirst needs (l ++ [a])

namespace NeedsFirst

open Relation

variable {α : Type} {needs : α → α → Prop} {l l' : List α} {a b : α}

/-- What stands first is in order by itself. -/
theorem prefix_left (h : NeedsFirst needs (l ++ l')) : NeedsFirst needs l := by
  generalize he : l ++ l' = whole at h
  induction h generalizing l' with
  | nil => exact (List.append_eq_nil_iff.1 he).1 ▸ .nil
  | @snoc l₀ a before fresh first ih =>
    rcases List.eq_nil_or_concat l' with rfl | ⟨rest, last, rfl⟩
    · rw [List.append_nil] at he
      exact he ▸ .snoc before fresh first
    · rw [List.concat_eq_append, ← List.append_assoc] at he
      exact ih (List.append_inj_left' he rfl)

/-- Where an element stands, those that it needs stand before. -/
theorem at_split (h : NeedsFirst needs (l ++ a :: l')) : a ∉ l ∧ ∀ b, needs a b → b ∈ l := by
  rw [← List.singleton_append, ← List.append_assoc] at h
  generalize he : l ++ [a] = whole at h
  cases prefix_left h with
  | nil => exact absurd he (by simp)
  | snoc before fresh first =>
    obtain ⟨rfl, last⟩ := List.append_inj' he rfl
    cases last
    exact ⟨fresh, first⟩

theorem nodup (h : NeedsFirst needs l) : l.Nodup := by
  induction h with
  | nil => exact .nil
  | snoc before fresh first ih =>
    exact List.nodup_append.2 ⟨ih, List.nodup_singleton _, fun a ha b hb hab =>
      fresh (List.mem_singleton.1 hb ▸ hab ▸ ha)⟩

/-- An element is put at the end, unless it is there already. -/
theorem appendNew [DecidableEq α] (h : NeedsFirst needs l) (first : ∀ b, needs a b → b ∈ l) :
    NeedsFirst needs (appendNew l a) := by
  unfold ShaderGraph.appendNew
  split
  · exact h
  · next fresh => exact .snoc h fresh first

variable [DecidableEq α]

/-- What an element needs stands before it. -/
theorem idxOf_lt (h : NeedsFirst needs l) (ha : a ∈ l) (hb : needs a b) :
    b ∈ l ∧ l.idxOf b < l.idxOf a := by
  obtain ⟨before, after, rfl, fresh⟩ := List.eq_append_cons_of_mem ha
  have earlier : b ∈ before := h.at_split.2 b hb
  refine ⟨List.mem_append_left _ earlier, ?_⟩
  rw [List.idxOf_append_of_mem earlier, List.idxOf_append_of_notMem fresh, List.idxOf_cons_self]
  exact Nat.lt_of_lt_of_le (List.idxOf_lt_length_of_mem earlier) (Nat.le_add_right _ _)

theorem mem_of_reach (h : NeedsFirst needs l) (ha : a ∈ l) (hb : ReflTransGen needs a b) :
    b ∈ l := by
  induction hb with
  | refl => exact ha
  | tail _ step ih => exact (h.idxOf_lt ih step).1

/-- No element of the list needs itself, directly or through others. -/
theorem irrefl (h : NeedsFirst needs l) (ha : a ∈ l) : ¬TransGen needs a a := by
  have lower : ∀ {b}, TransGen needs a b → b ∈ l ∧ l.idxOf b < l.idxOf a := by
    intro b hb
    induction hb with
    | single step => exact h.idxOf_lt ha step
    | tail _ step ih =>
      obtain ⟨mem, lt⟩ := h.idxOf_lt ih.1 step
      exact ⟨mem, lt.trans ih.2⟩
  exact fun hs => (lower hs).2.false

end NeedsFirst

/-! ### Ordered maps -/

namespace OrderedMap

variable {κ α : Type} [DecidableEq κ]

theorem find?_isSome_iff {k : κ} {es : List (κ × α)} :
    (find? k es).isSome ↔ k ∈ es.map Prod.fst := by
  induction es with
  | nil => simp [find?]
  | cons e rest ih =>
    obtain ⟨k', a⟩ := e
    rw [find?, List.map_cons, List.mem_cons]
    split
    · next h => simp [h]
    · next h => simp [h, ih]

theorem get?_isSome_iff {m : OrderedMap κ α} {k : κ} : (m.get? k).isSome ↔ k ∈ m.keys :=
  find?_isSome_iff

theorem mem_of_find? {k : κ} {a : α} {es : List (κ × α)} (h : find? k es = some a) :
    (k, a) ∈ es := by
  induction es with
  | nil => cases h
  | cons e rest ih =>
    obtain ⟨k', a'⟩ := e
    rw [find?] at h
    split at h
    · next hk =>
      cases h
      rw [hk]
      exact .head _
    · exact .tail _ (ih h)

theorem find?_append (k : κ) (es es' : List (κ × α)) :
    find? k (es ++ es') = (find? k es).or (find? k es') := by
  induction es with
  | nil => rfl
  | cons e rest ih =>
    obtain ⟨k', a⟩ := e
    rw [List.cons_append, find?, find?]
    split
    · rfl
    · exact ih

/-- What is found where no key is repeated. -/
theorem find?_of_nodup {k : κ} {a : α} {before after : List (κ × α)}
    (h : ((before ++ (k, a) :: after).map Prod.fst).Nodup) :
    find? k (before ++ (k, a) :: after) = some a := by
  rw [List.map_append, List.map_cons] at h
  have hk : find? k before = none := by
    rw [← Option.not_isSome_iff_eq_none, find?_isSome_iff]
    exact fun hb => List.disjoint_of_nodup_append h hb (.head _)
  rw [find?_append, hk, find?, if_pos rfl]
  rfl

/-- No key is repeated when a value is put. -/
theorem nodup_keys_put {m : OrderedMap κ α} (h : m.keys.Nodup) (k : κ) (a : α) :
    (m.put k a).keys.Nodup := by
  rw [keys_put]
  split
  · exact h
  · next hk =>
    refine List.nodup_append.2 ⟨h, List.nodup_singleton k, ?_⟩
    rintro k' hk' _ hmem rfl
    exact hk (List.mem_singleton.1 hmem ▸ hk')

/-- What stands in a map without repeated keys is found. -/
theorem get?_of_mem {m : OrderedMap κ α} (h : m.keys.Nodup) {k : κ} {a : α}
    (hmem : (k, a) ∈ m.entries) : m.get? k = some a := by
  obtain ⟨before, after, he⟩ := List.append_of_mem hmem
  unfold get?
  unfold keys at h
  rw [he] at h ⊢
  exact find?_of_nodup h

theorem putIn_of_notMem {k : κ} {a : α} {es : List (κ × α)} (h : k ∉ es.map Prod.fst) :
    putIn k a es = es ++ [(k, a)] := by
  induction es with
  | nil => rfl
  | cons e rest ih =>
    obtain ⟨k', a'⟩ := e
    rw [List.map_cons, List.mem_cons, not_or] at h
    rw [putIn, if_neg h.1, ih h.2]
    rfl

/-- What is found after a value was put is that value or was there before. -/
theorem get?_of_put {m : OrderedMap κ α} {k k' : κ} {a b : α} (h : (m.put k a).get? k' = some b) :
    k' = k ∧ b = a ∨ k' ≠ k ∧ m.get? k' = some b := by
  rw [get?_put] at h
  split at h
  · next he => exact .inl ⟨he, (Option.some.inj h).symm⟩
  · next hne => exact .inr ⟨hne, h⟩

/-- What holds of a value that is put, and of all values before, holds of all. -/
theorem forall_get?_put {P : α → Prop} {m : OrderedMap κ α} {k : κ} {a : α} (ha : P a)
    (h : ∀ k' b, m.get? k' = some b → P b) : ∀ k' b, (m.put k a).get? k' = some b → P b := by
  intro k' b hb
  rcases get?_of_put hb with ⟨-, rfl⟩ | ⟨-, hb⟩
  · exact ha
  · exact h k' b hb

/-- A new key goes to the end, with its value. -/
theorem entries_put_of_none {m : OrderedMap κ α} {k : κ} (h : m.get? k = none) (a : α) :
    (m.put k a).entries = m.entries ++ [(k, a)] := by
  refine putIn_of_notMem fun hk => ?_
  rw [← find?_isSome_iff, show find? k m.entries = none from h] at hk
  cases hk

/-- A key that is there keeps its place. -/
theorem entries_put_of_some {m : OrderedMap κ α} {k : κ} {a : α} (h : m.get? k = some a) (b : α) :
    ∃ before after, m.entries = before ++ (k, a) :: after ∧
      (m.put k b).entries = before ++ (k, b) :: after := by
  obtain ⟨es⟩ := m
  replace h : find? k es = some a := h
  show ∃ before after, es = before ++ (k, a) :: after ∧ putIn k b es = before ++ (k, b) :: after
  induction es with
  | nil => cases h
  | cons e rest ih =>
    obtain ⟨k', a'⟩ := e
    rw [find?] at h
    rw [putIn]
    by_cases hk : k = k'
    · rw [if_pos hk] at h ⊢
      cases h
      exact ⟨[], rest, by rw [hk]; rfl, by rw [hk]; rfl⟩
    · rw [if_neg hk] at h ⊢
      obtain ⟨before, after, hes, hput⟩ := ih h
      exact ⟨(k', a') :: before, after, by rw [hes]; rfl, by rw [hput]; rfl⟩

variable {β : Type}

/-- What the entries of a map give, when an entry is new. -/
theorem flatMap_put_of_none {m : OrderedMap κ α} {k : κ} (h : m.get? k = none) (a : α)
    (f : κ × α → List β) : (m.put k a).entries.flatMap f = m.entries.flatMap f ++ f (k, a) := by
  rw [entries_put_of_none h, List.flatMap_append, List.flatMap_singleton]

/-- What the entries of a map give, when an entry is put that gives what was given before. -/
theorem flatMap_put {m : OrderedMap κ α} {k : κ} {b : α} {f : κ × α → List β}
    (hs : ∀ a, m.get? k = some a → f (k, b) = f (k, a)) (hn : m.get? k = none → f (k, b) = []) :
    (m.put k b).entries.flatMap f = m.entries.flatMap f := by
  cases h : m.get? k with
  | none => rw [flatMap_put_of_none h, hn h, List.append_nil]
  | some a =>
    obtain ⟨before, after, hm, hput⟩ := entries_put_of_some h b
    rw [hm, hput, List.flatMap_append, List.flatMap_append, List.flatMap_cons, List.flatMap_cons,
      hs a h]

/-- What the entries of a map give, when one of them is replaced by one that gives more. -/
theorem flatMap_put_of_some {m : OrderedMap κ α} {k : κ} {a : α} (h : m.get? k = some a) (b : α)
    (f : κ × α → List β) (more : List β) (hf : f (k, b) = f (k, a) ++ more) :
    ((m.put k b).entries.flatMap f).Perm (m.entries.flatMap f ++ more) := by
  obtain ⟨before, after, hm, hput⟩ := entries_put_of_some h b
  rw [hm, hput, List.flatMap_append, List.flatMap_append, List.flatMap_cons, List.flatMap_cons, hf]
  simp only [List.append_assoc]
  exact ((List.perm_append_comm.append_left _).append_left _)

end OrderedMap

/-! ### Lists in order -/

/-- Numbers in order that are those below a bound are counted up one by one. -/
theorem eq_range_of_perm {xs : List Nat} {n : Nat} (hp : xs.Perm (List.range n))
    (hs : xs.Pairwise (· ≤ ·)) : xs = List.range n :=
  hp.eq_of_pairwise (fun _ _ _ _ => Nat.le_antisymm) hs
    (List.pairwise_lt_range.imp Nat.le_of_lt)

/-- A part of a sum is added again when its key is not excluded any more. -/
theorem sum_outside_cons {α κ : Type} [DecidableEq κ] (key : α → κ) (weight : α → Nat)
    {xs : List α} {x : α} (hx : x ∈ xs) {seen : List κ} (hs : key x ∉ seen) :
    (xs.map fun y => if key y ∈ key x :: seen then 0 else weight y).sum + weight x ≤
      (xs.map fun y => if key y ∈ seen then 0 else weight y).sum := by
  -- with one more key excluded no part is larger
  have le : ∀ ys : List α,
      (ys.map fun y => if key y ∈ key x :: seen then 0 else weight y).sum ≤
        (ys.map fun y => if key y ∈ seen then 0 else weight y).sum := by
    intro ys
    refine List.sum_le_sum fun y _ => ?_
    by_cases hy : key y ∈ seen
    · rw [if_pos hy, if_pos (List.mem_cons_of_mem _ hy)]
    · rw [if_neg hy]
      split <;> omega
  obtain ⟨before, after, rfl⟩ := List.append_of_mem hx
  have hb := le before
  have ha := le after
  simp only [List.map_append, List.map_cons, List.sum_append, List.sum_cons, List.mem_cons_self,
    if_true, hs, if_false]
  omega

/-- What the first of three lists gets is as good as put behind them. -/
theorem perm_append_first {α : Type} {xs xs' more : List α} (h : xs'.Perm (xs ++ more))
    (ys zs : List α) : (xs' ++ ys ++ zs).Perm (xs ++ ys ++ zs ++ more) := by
  refine ((h.append_right ys).append_right zs).trans ?_
  simp only [List.append_assoc]
  rw [← List.append_assoc ys zs more]
  exact List.perm_append_comm.append_left xs

/-- What the second of three lists gets is as good as put behind them. -/
theorem perm_append_second {α : Type} {ys ys' more : List α} (h : ys'.Perm (ys ++ more))
    (xs zs : List α) : (xs ++ ys' ++ zs).Perm (xs ++ ys ++ zs ++ more) := by
  refine ((h.append_left xs).append_right zs).trans ?_
  simp only [List.append_assoc]
  exact (List.perm_append_comm.append_left ys).append_left xs

/-- The numbers below a bound, and then some more. -/
theorem perm_range_add {xs ys : List Nat} {n k : Nat} (h : xs.Perm (List.range n))
    (hy : ys.Perm (xs ++ (List.range k).map (n + ·))) : ys.Perm (List.range (n + k)) := by
  rw [List.range_add]
  exact hy.trans (h.append_right _)

/-- Lists in the order of different numbers are the same if they hold the same. -/
theorem eq_of_mem_iff {α : Type} {f : α → Nat} {xs ys : List α} (hx : (xs.map f).Nodup)
    (hy : (ys.map f).Nodup) (hxs : xs.Pairwise fun a b => f a ≤ f b)
    (hys : ys.Pairwise fun a b => f a ≤ f b) (h : ∀ a, a ∈ xs ↔ a ∈ ys) : xs = ys := by
  have perm : xs.Perm ys := (List.perm_ext_iff_of_nodup (.of_map f hx) (.of_map f hy)).2 h
  refine perm.eq_of_pairwise (fun a b ha hb hab hba => ?_) hxs hys
  exact List.inj_on_of_nodup_map hx ha ((h b).2 hb) (Nat.le_antisymm hab hba)

end ShaderGraph
