import Mathlib.Data.List.Chain
import ShaderGraph.Native.Reader
import ShaderGraph.Proofs.Scanning

/-!
# Texts without comments

Marking the characters of a source in parts.

* In an `Unmarked` text no comment starts: all of it is `visible`, and the scanners of sources
  see it as it stands.
* `Region.after` is the region a text leaves its reader in. A source is marked piece by piece
  where a character stands that is no part of a comment mark (`glyphsIn_append`).
* What stands in front of a visible character leaves no block comment open
  (`glyphsIn_front`).
-/

namespace ShaderGraph.Native

/-! ### Texts in which no comment starts -/

/-- A text in which no comment starts. -/
def Unmarked (cs : List Char) : Prop :=
  cs.IsChain fun a b => a = '/' → b ≠ '/' ∧ b ≠ '*'

instance (cs : List Char) : Decidable (Unmarked cs) :=
  inferInstanceAs (Decidable (cs.IsChain fun a b => a = '/' → b ≠ '/' ∧ b ≠ '*'))

/-- The characters of a text without comments. -/
def visible (cs : List Char) : List Glyph := cs.map fun c => ⟨c, false⟩

theorem Unmarked.of_notMem {cs : List Char} (h : '/' ∉ cs) : Unmarked cs := by
  induction cs with
  | nil => exact List.IsChain.nil
  | cons c cs ih =>
    refine (ih fun hm => h (by simp [hm])).cons fun b _ e => ?_
    exact absurd (by simp [e]) h

theorem Unmarked.append {as bs : List Char} (ha : Unmarked as) (hb : Unmarked bs)
    (h : as.getLast? = some '/' → ∀ b ∈ bs.head?, b ≠ '/' ∧ b ≠ '*') : Unmarked (as ++ bs) :=
  List.isChain_append.2 ⟨ha, hb, fun _ ha b hb e => h (e ▸ ha) b hb⟩

/-- In a list of items no comment starts, when none starts in an item. -/
theorem Unmarked.intercalate {items : List (List Char)} (h : ∀ i ∈ items, Unmarked i) :
    Unmarked ([',', ' '].intercalate items) := by
  induction items with
  | nil => exact .of_notMem (by simp)
  | cons item items ih =>
    have hitems := ih fun i hi => h i (List.mem_cons_of_mem _ hi)
    cases items with
    | nil => simpa using h item (by simp)
    | cons next items =>
      rw [List.intercalate_cons_cons, List.append_assoc]
      exact (h item (by simp)).append (Unmarked.append (by decide) hitems (by simp)) (by simp)

/-- A text in which no comment starts is code. -/
theorem glyphs_of_unmarked {cs : List Char} (h : Unmarked cs) : glyphs cs = visible cs := by
  suffices key : ∀ r, r = Region.code → glyphsIn r cs = visible cs from key _ rfl
  intro r hr
  fun_induction glyphsIn r cs with
  | case1 => rfl
  | case2 cs => exact absurd rfl ((List.isChain_cons_cons.1 h).1 rfl).1
  | case3 cs => exact absurd rfl ((List.isChain_cons_cons.1 h).1 rfl).2
  | case4 c cs _ _ ih => rw [ih h.tail rfl]; rfl
  | case5 | case6 | case7 | case8 => cases hr

section Visible

variable (cs ds : List Char)

@[simp] theorem visible_nil : visible [] = [] := rfl

@[simp] theorem visible_append : visible (cs ++ ds) = visible cs ++ visible ds := List.map_append

@[simp] theorem visible_cons (c : Char) : visible (c :: cs) = ⟨c, false⟩ :: visible cs := rfl

@[simp] theorem map_shown_visible : (visible cs).map Glyph.shown = cs := by
  simp [visible, Function.comp_def, Glyph.shown]

@[simp] theorem written_visible : written (visible cs) = cs := by
  simp [visible, written, Function.comp_def]

@[simp] theorem blanked_visible : blanked (visible cs) = cs := by
  simp [visible, blanked, List.flatMap_map, Glyph.blanked]

end Visible

/-! ### Sources in parts -/

/-- The region in which a source goes on behind a text. -/
def Region.after : Region → List Char → Region
  | r, [] => r
  | .code, '/' :: '/' :: cs => after .lineComment cs
  | .code, '/' :: '*' :: cs => after .blockComment cs
  | .code, _ :: cs => after .code cs
  | .lineComment, '\n' :: cs => after .code cs
  | .lineComment, _ :: cs => after .lineComment cs
  | .blockComment, '*' :: '/' :: cs => after .code cs
  | .blockComment, _ :: cs => after .blockComment cs

/-- A source is marked in parts where a character stands that belongs to no comment mark. -/
theorem glyphsIn_append (r : Region) (as bs : List Char) {b : Char} (hslash : b ≠ '/')
    (hstar : b ≠ '*') :
    glyphsIn r (as ++ b :: bs) = glyphsIn r as ++ glyphsIn (r.after as) (b :: bs) := by
  fun_induction glyphsIn r as with
  | case1 => rfl
  | case2 cs ih => simp [glyphsIn, Region.after, ih]
  | case3 cs ih => simp [glyphsIn, Region.after, ih]
  | case4 c cs h₁ h₂ ih =>
    have hafter : Region.code.after (c :: cs) = Region.code.after cs := by
      rw [Region.after] <;> assumption
    rw [hafter, List.cons_append, List.cons_append, ← ih]
    -- the text behind `c` starts as before, or with `b`
    cases cs with
    | nil => exact glyphsIn.eq_4 _ _ (by simp_all) (by simp_all)
    | cons d ds => exact glyphsIn.eq_4 _ _ (by simp_all) (by simp_all)
  | case5 cs ih => simp [glyphsIn, Region.after, ih]
  | case6 c cs h ih =>
    have hafter : Region.lineComment.after (c :: cs) = Region.lineComment.after cs := by
      rw [Region.after]; assumption
    rw [hafter, List.cons_append, List.cons_append, ← ih]
    exact glyphsIn.eq_6 _ _ h
  | case7 cs ih => simp [glyphsIn, Region.after, ih]
  | case8 c cs h ih =>
    have hafter : Region.blockComment.after (c :: cs) = Region.blockComment.after cs := by
      rw [Region.after]; assumption
    rw [hafter, List.cons_append, List.cons_append, ← ih]
    cases cs with
    | nil => exact glyphsIn.eq_8 _ _ (by simp_all)
    | cons d ds => exact glyphsIn.eq_8 _ _ (by simp_all)

/-- The region behind a text is found in parts as well. -/
theorem Region.after_append (r : Region) (as bs : List Char) {b : Char} (hslash : b ≠ '/')
    (hstar : b ≠ '*') : r.after (as ++ b :: bs) = (r.after as).after (b :: bs) := by
  fun_induction Region.after r as with
  | case1 => rfl
  | case2 cs ih => simp [Region.after, ih]
  | case3 cs ih => simp [Region.after, ih]
  | case4 c cs h₁ h₂ ih =>
    rw [List.cons_append, ← ih]
    cases cs with
    | nil => exact Region.after.eq_4 _ _ (by simp_all) (by simp_all)
    | cons d ds => exact Region.after.eq_4 _ _ (by simp_all) (by simp_all)
  | case5 cs ih => simp [Region.after, ih]
  | case6 c cs h ih =>
    rw [List.cons_append, ← ih]
    exact Region.after.eq_6 _ _ h
  | case7 cs ih => simp [Region.after, ih]
  | case8 c cs h ih =>
    rw [List.cons_append, ← ih]
    cases cs with
    | nil => exact Region.after.eq_8 _ _ (by simp_all)
    | cons d ds => exact Region.after.eq_8 _ _ (by simp_all)

/-- Blanks close no comment. -/
theorem Region.after_blanks {bs : List Char} (h : ∀ b ∈ bs, Text.isBlank b = true) :
    Region.blockComment.after bs = .blockComment := by
  induction bs with
  | nil => rfl
  | cons b bs ih =>
    have hb : b ≠ '*' := by rintro rfl; exact absurd (h '*' (by simp)) (by decide)
    rw [Region.after, ih fun c hc => h c (by simp [hc])]
    exact fun _ e => absurd e hb

theorem written_prefix {r : Region} {cs : List Char} {front back : List Glyph}
    (h : glyphsIn r cs = front ++ back) : written front <+: cs := by
  refine ⟨written back, ?_⟩
  rw [← written_glyphsIn r cs, h]
  simp [written]

/-- What stands in front of a visible character is marked as it is in the whole source, and
leaves no block comment open. -/
theorem glyphsIn_front {r : Region} {cs : List Char} {front back : List Glyph} {g : Glyph}
    (h : glyphsIn r cs = front ++ g :: back) (hg : g.hidden = false) :
    glyphsIn r (written front) = front ∧ r.after (written front) ≠ .blockComment := by
  fun_induction glyphsIn r cs generalizing front with
  | case1 => simp at h
  | case2 cs ih | case3 cs ih | case7 cs ih =>
    -- the two characters of a mark are hidden, so `front` holds both
    cases front with
    | nil => simp [← (List.cons.inj h).1] at hg
    | cons f₁ front =>
    obtain ⟨rfl, htail⟩ := List.cons.inj h
    cases front with
    | nil => simp [← (List.cons.inj htail).1] at hg
    | cons f₂ front =>
      obtain ⟨rfl, hrest⟩ := List.cons.inj htail
      obtain ⟨hmarks, hafter⟩ := ih hrest
      exact ⟨by simpa [written, glyphsIn] using hmarks,
        by simpa [written, Region.after] using hafter⟩
  | case4 c cs h₁ h₂ ih =>
    cases front with
    | nil => exact ⟨rfl, by simp [written, Region.after]⟩
    | cons f front =>
      obtain ⟨rfl, hrest⟩ := List.cons.inj h
      obtain ⟨hmarks, hafter⟩ := ih hrest
      obtain ⟨ds, hds⟩ := written_prefix hrest
      have hno₁ : ∀ es, c = '/' → written front = '/' :: es → False :=
        fun es hc e => h₁ (es ++ ds) hc (by rw [← hds, e]; rfl)
      have hno₂ : ∀ es, c = '/' → written front = '*' :: es → False :=
        fun es hc e => h₂ (es ++ ds) hc (by rw [← hds, e]; rfl)
      refine ⟨?_, ?_⟩
      · show glyphsIn .code (c :: written front) = _
        rw [glyphsIn.eq_4 _ _ hno₁ hno₂, hmarks]
      · show Region.code.after (c :: written front) ≠ _
        rwa [Region.after.eq_4 _ _ hno₁ hno₂]
  | case5 cs ih =>
    cases front with
    | nil => exact ⟨rfl, by simp [written, Region.after]⟩
    | cons f front =>
      obtain ⟨rfl, hrest⟩ := List.cons.inj h
      obtain ⟨hmarks, hafter⟩ := ih hrest
      exact ⟨by simpa [written, glyphsIn] using hmarks,
        by simpa [written, Region.after] using hafter⟩
  | case6 c cs hnl ih =>
    cases front with
    | nil => simp [← (List.cons.inj h).1] at hg
    | cons f front =>
      obtain ⟨rfl, hrest⟩ := List.cons.inj h
      obtain ⟨hmarks, hafter⟩ := ih hrest
      refine ⟨?_, ?_⟩
      · show glyphsIn .lineComment (c :: written front) = _
        rw [glyphsIn.eq_6 _ _ hnl, hmarks]
      · show Region.lineComment.after (c :: written front) ≠ _
        rwa [Region.after.eq_6 _ _ hnl]
  | case8 c cs hno ih =>
    cases front with
    | nil => simp [← (List.cons.inj h).1] at hg
    | cons f front =>
      obtain ⟨rfl, hrest⟩ := List.cons.inj h
      obtain ⟨hmarks, hafter⟩ := ih hrest
      obtain ⟨ds, hds⟩ := written_prefix hrest
      have hno' : ∀ es, c = '*' → written front = '/' :: es → False :=
        fun es hc e => hno (es ++ ds) hc (by rw [← hds, e]; rfl)
      refine ⟨?_, ?_⟩
      · show glyphsIn .blockComment (c :: written front) = _
        rw [glyphsIn.eq_8 _ _ hno', hmarks]
      · show Region.blockComment.after (c :: written front) ≠ _
        rwa [Region.after.eq_8 _ _ hno']

/-! ### Blocks and parameter lists -/

/-- A text that starts with a brace and whose last character closes it. -/
structure IsBlock (text : List Char) : Prop where
  opens : text.head? = some '\x7b'
  /-- All braces are closed at the end. -/
  closes : Text.excess '\x7b' '\x7d' text = 0
  /-- They are not all closed before the end. -/
  first : ∀ front back, text = front ++ back → front ≠ [] → back ≠ [] →
    Text.excess '\x7b' '\x7d' front ≠ 0

instance (text : List Char) : Decidable (IsBlock text) :=
  decidable_of_iff (text.head? = some '\x7b' ∧ Text.excess '\x7b' '\x7d' text = 0 ∧
      ∀ n < text.length, n ≠ 0 → Text.excess '\x7b' '\x7d' (text.take n) ≠ 0)
    ⟨fun ⟨hopens, hcloses, h⟩ => ⟨hopens, hcloses, fun front back e hfront hback => by
      have := h front.length
        (by rw [e, List.length_append]; have := List.length_pos_iff.2 hback; omega)
        (by simpa using hfront)
      rwa [e, List.take_left] at this⟩,
    fun h => ⟨h.opens, h.closes, fun n hn hne => h.first _ (text.drop n)
      (List.take_append_drop n text).symm
      (by rw [← List.length_pos_iff, List.length_take]; omega)
      (by rw [← List.length_pos_iff, List.length_drop]; omega)⟩⟩

/-- A block is a balanced text in braces. -/
theorem IsBlock.shape {text : List Char} (h : IsBlock text) :
    ∃ inside, text = '\x7b' :: (inside ++ ['\x7d']) ∧ Text.Balanced '\x7b' '\x7d' inside := by
  obtain ⟨rest, rfl⟩ : ∃ rest, text = '\x7b' :: rest := List.head?_eq_some_iff.1 h.opens
  have hone : Text.excess '\x7b' '\x7d' ['\x7b'] = 1 := Text.excess_opening (by decide)
  have hends := h.closes
  rw [Text.excess_cons, hone] at hends
  rcases List.eq_nil_or_concat rest with rfl | ⟨inside, last, rfl⟩
  · simp at hends
  -- each character changes the number of open braces by one at most
  have hstep : ∀ c, -1 ≤ Text.excess '\x7b' '\x7d' [c] ∧
      (Text.excess '\x7b' '\x7d' [c] = -1 → c = '\x7d') := by
    intro c
    by_cases ho : c = '\x7b'
    · subst ho; rw [hone]; decide
    by_cases hc : c = '\x7d'
    · subst hc; rw [Text.excess_closing (by decide)]; decide
    · rw [Text.excess_other ho hc]; exact ⟨by decide, fun e => absurd e (by decide)⟩
  have hopen : ∀ front, front <+: inside → 0 ≤ Text.excess '\x7b' '\x7d' front := by
    intro front
    induction front using List.reverseRecOn with
    | nil => intro _; exact Int.le_refl 0
    | append_singleton front c ih =>
      intro hfront
      obtain ⟨back, hback⟩ := hfront
      have hbefore := ih ⟨c :: back, by rw [← hback]; simp⟩
      have hnot := h.first ('\x7b' :: (front ++ [c])) (back ++ [last])
        (by rw [List.concat_eq_append, ← hback]; simp) (by simp) (by simp)
      rw [Text.excess_cons, hone, Text.excess_append] at hnot
      rw [Text.excess_append]
      have := (hstep c).1
      omega
  rw [List.concat_eq_append, Text.excess_append] at hends
  have hinside := hopen inside List.prefix_rfl
  have hlast := hstep last
  have hclosing : last = '\x7d' := hlast.2 (by have := hlast.1; omega)
  subst hclosing
  rw [Text.excess_closing (by decide)] at hends
  exact ⟨inside, by simp, hopen, by omega⟩

/-- A parameter list in which no comment starts is cut out at its closing parenthesis. -/
theorem parameterList_visible {inside : List Char} (d : Dialect) (rest : List Char)
    (h : Text.Balanced '(' ')' inside) :
    parameterList d (visible (inside ++ ')' :: rest)) = .ok (visible inside, visible rest) := by
  have hshown : Text.Balanced '(' ')' ((visible inside).map Glyph.shown) := by simpa using h
  have hlast : (⟨')', false⟩ : Glyph).shown = ')' := rfl
  have hcut := Text.takeBracket_balanced (by decide) hshown (visible rest) hlast
  simp only [parameterList, visible_append, visible_cons, hcut]

/-- A body in which no comment starts is cut out as it stands. -/
theorem body_visible {between text : List Char} (hbetween : '\x7b' ∉ between)
    (h : IsBlock text) :
    body (visible (between ++ text)) = .ok (visible between, String.ofList text) := by
  obtain ⟨inside, rfl, hinside⟩ := h.shape
  have hopen : Text.cutAt (fun g : Glyph => g.shown == '\x7b')
      (visible between ++ ⟨'\x7b', false⟩ :: visible (inside ++ ['\x7d'])) =
      some (visible between, visible (inside ++ ['\x7d'])) := by
    refine Text.cutAt_append _ (fun g hg => ?_) rfl
    obtain ⟨c, hc, rfl⟩ := List.mem_map.1 hg
    refine beq_false_of_ne ?_
    rintro rfl
    exact hbetween hc
  have hshown : Text.Balanced '\x7b' '\x7d' ((visible inside).map Glyph.shown) := by
    simpa using hinside
  have hlast : (⟨'\x7d', false⟩ : Glyph).shown = '\x7d' := rfl
  have hclose := Text.takeBracket_balanced (by decide) hshown [] hlast
  simp only [body, visible_append, visible_cons, visible_nil] at hopen ⊢
  simp only [hopen, hclose, written_visible, List.cons_append]

end ShaderGraph.Native
