import Mathlib.Data.List.Infix
import ShaderGraph.Proofs.Markers

/-!
# Blanked comments

What blanking does to the bytes of a source.

* `Blanks` says of two lists of bytes that the second is the first with its comments blanked: a line
  comment goes up to a newline or to the end, a block comment up to its first closing mark, or to the
  end if there is none. It determines the second list (`Blanks.unique`).
* `blanks_glyphs`: the blanked text of a source is what `Blanks` says.
* No comment starts in blanked bytes (`Blanks.unmarked`), and bytes in which none starts are blanked
  already (`blanks_self`). So blanking twice is blanking once.
-/

namespace ShaderGraph

namespace Text

/-! ### Bytes -/

/-- The bytes of a text in UTF-8. -/
def bytes (cs : List Char) : List UInt8 := cs.flatMap String.utf8EncodeChar

@[simp] theorem bytes_nil : bytes [] = [] := rfl

@[simp] theorem bytes_cons (c : Char) (cs : List Char) :
    bytes (c :: cs) = String.utf8EncodeChar c ++ bytes cs := rfl

@[simp] theorem bytes_append (as bs : List Char) : bytes (as ++ bs) = bytes as ++ bytes bs :=
  List.flatMap_append

/-- The bytes tell the text. -/
theorem bytes_injective : Function.Injective bytes := by
  intro as bs h
  have same : as.utf8Encode = bs.utf8Encode := congrArg List.toByteArray h
  rw [← String.toByteArray_ofList, ← String.toByteArray_ofList, String.toByteArray_inj] at same
  exact String.ofList_injective same

/-- A character of one byte. -/
def IsNarrow (c : Char) : Prop := c.toNat < 128

instance (c : Char) : Decidable (IsNarrow c) := inferInstanceAs (Decidable (c.toNat < 128))

/-- The byte of a narrow character. -/
def byte (c : Char) : UInt8 := UInt8.ofNat c.toNat

variable {c d : Char} {b : UInt8}

theorem encode_of_narrow (h : IsNarrow c) : String.utf8EncodeChar c = [byte c] := by
  unfold String.utf8EncodeChar
  exact if_pos (Nat.le_of_lt_succ h)

/-- The bytes of any other character are no bytes of narrow ones. -/
theorem le_of_mem_encode (h : ¬IsNarrow c) (hb : b ∈ String.utf8EncodeChar c) : 128 ≤ b.toNat := by
  have wide : ¬c.val.toNat ≤ 0x7f := fun le => h (Nat.lt_succ_of_le le)
  unfold String.utf8EncodeChar at hb
  dsimp only at hb
  rw [if_neg wide] at hb
  split at hb
  · simp only [List.mem_cons, List.not_mem_nil, or_false] at hb
    rcases hb with rfl | rfl <;> rw [UInt8.toNat_ofNat'] <;> omega
  · split at hb
    · simp only [List.mem_cons, List.not_mem_nil, or_false] at hb
      rcases hb with rfl | rfl | rfl <;> rw [UInt8.toNat_ofNat'] <;> omega
    · simp only [List.mem_cons, List.not_mem_nil, or_false] at hb
      rcases hb with rfl | rfl | rfl | rfl <;> rw [UInt8.toNat_ofNat'] <;> omega

theorem toNat_byte (h : IsNarrow c) : (byte c).toNat = c.toNat := by
  unfold byte
  rw [UInt8.toNat_ofNat', Nat.mod_eq_of_lt]
  exact Nat.lt_trans h (by decide)

/-- The byte of a narrow character belongs to that character only. -/
theorem mem_encode_iff (h : IsNarrow c) : byte c ∈ String.utf8EncodeChar d ↔ d = c := by
  constructor
  · intro hb
    by_cases hd : IsNarrow d
    · rw [encode_of_narrow hd, List.mem_singleton] at hb
      have same := congrArg UInt8.toNat hb
      rw [toNat_byte h, toNat_byte hd] at same
      exact Char.toNat_inj.1 same.symm
    · have := le_of_mem_encode hd hb
      rw [toNat_byte h] at this
      exact absurd h (Nat.not_lt.2 this)
  · rintro rfl
    rw [encode_of_narrow h]
    exact List.mem_singleton_self _

theorem length_encode_pos (c : Char) : 0 < (String.utf8EncodeChar c).length := by
  rw [String.length_utf8EncodeChar]
  exact c.utf8Size_pos

/-- A text starts with the byte of a narrow character when it starts with that character. -/
theorem head?_bytes_iff (h : IsNarrow c) {cs : List Char} :
    (bytes cs).head? = some (byte c) ↔ cs.head? = some c := by
  cases cs with
  | nil => simp
  | cons d cs =>
    have ne : String.utf8EncodeChar d ≠ [] := List.ne_nil_of_length_pos (length_encode_pos d)
    rw [bytes_cons, List.head?_append_of_ne_nil _ ne, List.head?_cons]
    constructor
    · intro first
      exact congrArg some ((mem_encode_iff h).1 (List.mem_of_head? first))
    · intro same
      cases same
      rw [encode_of_narrow h]
      rfl

end Text

namespace Native

open Text

/-! ### Bytes with comments blanked -/

/-- What starts a line comment. -/
def lineMark : List UInt8 := [byte '/', byte '/']

/-- What starts a block comment. -/
def openMark : List UInt8 := [byte '/', byte '*']

/-- What ends a block comment. -/
def closeMark : List UInt8 := [byte '*', byte '/']

/-- A byte of a comment, blanked. -/
def blankByte (b : UInt8) : UInt8 := if b = byte '\n' then b else byte ' '

/-- The second list is the first with its comments blanked. -/
inductive Blanks : List UInt8 → List UInt8 → Prop
  | done : Blanks [] []
  /-- A byte at which no comment starts. -/
  | code {b : UInt8} {bs out : List UInt8} (line : ¬lineMark <+: b :: bs)
      (block : ¬openMark <+: b :: bs) (rest : Blanks bs out) : Blanks (b :: bs) (b :: out)
  /-- A line comment, without the newline behind it. -/
  | line {inside bs out : List UInt8} (first : byte '\n' ∉ inside)
      (ends : ∀ b ∈ bs.head?, b = byte '\n') (rest : Blanks bs out) :
      Blanks (lineMark ++ (inside ++ bs)) ((lineMark ++ inside).map (fun _ => byte ' ') ++ out)
  /-- A block comment up to the first mark that closes it. -/
  | block {inside bs out : List UInt8} (first : ¬closeMark <:+: inside)
      (rest : Blanks bs out) :
      Blanks (openMark ++ (inside ++ (closeMark ++ bs)))
        ((openMark ++ inside ++ closeMark).map blankByte ++ out)
  /-- A block comment that is not closed. -/
  | unclosed {inside : List UInt8} (never : ¬closeMark <:+: inside) :
      Blanks (openMark ++ inside) ((openMark ++ inside).map blankByte)

/-- A mark of two bytes is not found where its first byte is not. -/
theorem infix_of_append {x y : UInt8} {l bs : List UInt8} (hx : x ∉ l)
    (h : [x, y] <:+: l ++ bs) : [x, y] <:+: bs := by
  induction l with
  | nil => exact h
  | cons b l ih =>
    rcases List.infix_cons_iff.1 h with front | later
    · exact absurd (List.mem_cons.2 (.inl (List.cons_prefix_cons.1 front).1)) hx
    · exact ih (fun mem => hx (List.mem_cons_of_mem _ mem)) later

theorem slash_notMem_map_blankByte (l : List UInt8) : byte '/' ∉ l.map blankByte := by
  intro mem
  obtain ⟨b, -, hb⟩ := List.mem_map.1 mem
  unfold blankByte at hb
  split at hb
  · next newline => exact absurd (hb.symm.trans newline) (by decide)
  · exact absurd hb (by decide)

/-- How far a line comment goes is told by its bytes. -/
theorem line_split {as bs as' bs' : List UInt8} (h : as ++ bs = as' ++ bs')
    (first : byte '\n' ∉ as) (first' : byte '\n' ∉ as') (ends : ∀ b ∈ bs.head?, b = byte '\n')
    (ends' : ∀ b ∈ bs'.head?, b = byte '\n') : as = as' ∧ bs = bs' := by
  rcases List.append_eq_append_iff.1 h with ⟨t, rfl, rfl⟩ | ⟨t, rfl, rfl⟩
  · cases t with
    | nil => exact ⟨(List.append_nil _).symm, rfl⟩
    | cons b t =>
      obtain rfl := ends b rfl
      exact absurd (List.mem_append_right _ (.head _)) first'
  · cases t with
    | nil => exact ⟨List.append_nil _, rfl⟩
    | cons b t =>
      obtain rfl := ends' b rfl
      exact absurd (List.mem_append_right _ (.head _)) first

/-- How far a block comment goes is told by its bytes. -/
theorem block_split {as bs as' bs' : List UInt8}
    (h : as ++ (closeMark ++ bs) = as' ++ (closeMark ++ bs')) (first : ¬closeMark <:+: as)
    (first' : ¬closeMark <:+: as') : as = as' ∧ bs = bs' := by
  -- of two ends, the earlier one would close the comment before the later one
  have earlier : ∀ {t cs cs' : List UInt8}, closeMark ++ cs = t ++ (closeMark ++ cs') →
      t = [] ∨ closeMark <+: t := by
    intro t cs cs' h
    cases t with
    | nil => exact .inl rfl
    | cons x t =>
      obtain ⟨rfl, rest⟩ := List.cons.inj h
      cases t with
      | nil => exact absurd (List.cons.inj rest).1 (by decide)
      | cons y t =>
        obtain ⟨rfl, -⟩ := List.cons.inj rest
        exact .inr ⟨t, rfl⟩
  rcases List.append_eq_append_iff.1 h with ⟨t, rfl, ht⟩ | ⟨t, rfl, ht⟩
  · rcases earlier ht with rfl | ⟨u, rfl⟩
    · exact ⟨(List.append_nil _).symm, List.append_cancel_left ht⟩
    · exact absurd ⟨as, u, List.append_assoc _ _ _⟩ first'
  · rcases earlier ht with rfl | ⟨u, rfl⟩
    · exact ⟨List.append_nil _, (List.append_cancel_left ht).symm⟩
    · exact absurd ⟨as', u, List.append_assoc _ _ _⟩ first

namespace Blanks

variable {bs out out' : List UInt8}

theorem length_eq (h : Blanks bs out) : out.length = bs.length := by
  induction h with
  | done => rfl
  | code _ _ _ ih => rw [List.length_cons, List.length_cons, ih]
  | line _ _ _ ih => simp only [List.length_append, List.length_map, ih, Nat.add_assoc]
  | block _ _ ih => simp only [List.length_append, List.length_map, ih, Nat.add_assoc]
  | unclosed => rw [List.length_map]

/-- Blanked bytes start as the bytes do, or with a blank. -/
theorem head? (h : Blanks bs out) : ∀ b ∈ out.head?, b ∈ bs.head? ∨ b = byte ' ' := by
  cases h with
  | done => exact fun _ hb => nomatch hb
  | code => exact fun _ hb => .inl hb
  | line => exact fun _ hb => .inr (Option.some.inj hb).symm
  | block => exact fun _ hb => .inr (Option.some.inj hb).symm
  | unclosed => exact fun _ hb => .inr (Option.some.inj hb).symm

theorem not_infix (h : Blanks bs out) {x : UInt8} (hx : x ≠ byte ' ')
    (mark : ∀ bs, [byte '/', x] <+: bs → lineMark <+: bs ∨ openMark <+: bs) :
    ¬[byte '/', x] <:+: out := by
  induction h with
  | done => exact fun found => nomatch List.infix_nil.1 found
  | @code b bs out line block rest ih =>
    intro found
    rcases List.infix_cons_iff.1 found with front | later
    · obtain ⟨rfl, more, rfl⟩ := List.cons_prefix_cons.1 front
      -- the second byte of the mark stood behind the first one before
      rcases rest.head? x rfl with next | blank
      · obtain ⟨bs', rfl⟩ := List.head?_eq_some_iff.1 next
        exact (mark _ ⟨bs', rfl⟩).elim line block
      · exact hx blank
    · exact ih later
  | line _ _ _ ih =>
    refine fun found => ih (infix_of_append (fun mem => ?_) found)
    obtain ⟨_, -, blank⟩ := List.mem_map.1 mem
    exact absurd blank (by decide)
  | block _ _ ih => exact fun found => ih (infix_of_append (slash_notMem_map_blankByte _) found)
  | unclosed =>
    intro found
    rw [← List.append_nil (List.map _ _)] at found
    exact nomatch List.infix_nil.1 (infix_of_append (slash_notMem_map_blankByte _) found)

/-- No comment starts in blanked bytes. -/
theorem unmarked (h : Blanks bs out) : ¬lineMark <:+: out ∧ ¬openMark <:+: out :=
  ⟨h.not_infix (by decide) fun _ => .inl, h.not_infix (by decide) fun _ => .inr⟩

/-- Bytes at which no comment starts. -/
theorem skip {l : List UInt8} (hl : byte '/' ∉ l) (h : Blanks bs out) :
    Blanks (l ++ bs) (l ++ out) := by
  induction l with
  | nil => exact h
  | cons b l ih =>
    obtain ⟨first, later⟩ := not_or.1 (mt List.mem_cons.2 hl)
    have never : ∀ x, ¬[byte '/', x] <+: b :: (l ++ bs) := fun x front =>
      first (List.cons_prefix_cons.1 front).1
    exact .code (never _) (never _) (ih later)

/-- Bytes in which no comment starts are blanked already. -/
theorem self (line : ¬lineMark <:+: bs) (block : ¬openMark <:+: bs) : Blanks bs bs := by
  induction bs with
  | nil => exact .done
  | cons b bs ih =>
    exact .code (fun front => line front.isInfix) (fun front => block front.isInfix)
      (ih (fun h => line (List.infix_cons h)) fun h => block (List.infix_cons h))

/-- The bytes tell the blanked ones. -/
theorem unique (h : Blanks bs out) (h' : Blanks bs out') : out = out' := by
  -- a mark at the start tells which case it is
  have differ : ∀ {as as' : List UInt8}, lineMark ++ as ≠ openMark ++ as' := fun h =>
    absurd (List.cons.inj (List.cons.inj h).2).1 (by decide)
  induction h generalizing out' with
  | done =>
    generalize hs : ([] : List UInt8) = src at h'
    cases h' with
    | done => rfl
    | code => cases hs
    | line => cases hs
    | block => cases hs
    | unclosed => cases hs
  | @code b bs out line block rest ih =>
    generalize hs : b :: bs = src at h' line block
    cases h' with
    | done => cases hs
    | code _ _ rest' =>
      obtain ⟨rfl, rfl⟩ := List.cons.inj hs
      rw [ih rest']
    | line => exact absurd ⟨_, rfl⟩ line
    | block => exact absurd ⟨_, rfl⟩ block
    | unclosed => exact absurd ⟨_, rfl⟩ block
  | @line inside bs out first ends rest ih =>
    generalize hs : lineMark ++ (inside ++ bs) = src at h'
    cases h' with
    | done => cases hs
    | code line' _ _ => exact absurd ⟨_, hs⟩ line'
    | line first' ends' rest' =>
      obtain ⟨rfl, rfl⟩ := line_split (List.append_cancel_left hs) first first' ends ends'
      rw [ih rest']
    | block => exact absurd hs differ
    | unclosed => exact absurd hs differ
  | @block inside bs out first rest ih =>
    generalize hs : openMark ++ (inside ++ (closeMark ++ bs)) = src at h'
    cases h' with
    | done => cases hs
    | code _ block' _ => exact absurd ⟨_, hs⟩ block'
    | line => exact absurd hs.symm differ
    | block first' rest' =>
      obtain ⟨rfl, rfl⟩ := block_split (List.append_cancel_left hs) first first'
      rw [ih rest']
    | unclosed never =>
      exact absurd ⟨_, _, (List.append_assoc _ _ _).trans (List.append_cancel_left hs)⟩ never
  | @unclosed inside never =>
    generalize hs : openMark ++ inside = src at h'
    cases h' with
    | done => cases hs
    | code _ block' _ => exact absurd ⟨_, hs⟩ block'
    | line => exact absurd hs.symm differ
    | block =>
      exact absurd ⟨_, _, (List.append_assoc _ _ _).trans (List.append_cancel_left hs).symm⟩ never
    | unclosed =>
      obtain rfl := List.append_cancel_left hs
      rfl

end Blanks

/-! ### The blanked text -/

/-- The second list is what becomes of the bytes in a region. -/
def Region.Blanks : Region → List UInt8 → List UInt8 → Prop
  | .code, bs, out => Native.Blanks bs out
  | .lineComment, bs, out => ∃ inside rest out', bs = inside ++ rest ∧ byte '\n' ∉ inside ∧
      (∀ b ∈ rest.head?, b = byte '\n') ∧ Native.Blanks rest out' ∧
      out = inside.map (fun _ => byte ' ') ++ out'
  | .blockComment, bs, out =>
    (∃ inside rest out', bs = inside ++ (closeMark ++ rest) ∧ ¬closeMark <:+: inside ∧
      Native.Blanks rest out' ∧ out = (inside ++ closeMark).map blankByte ++ out') ∨
    ¬closeMark <:+: bs ∧ out = bs.map blankByte

theorem bytes_replicate_blank (n : Nat) :
    bytes (List.replicate n ' ') = List.replicate n (byte ' ') := by
  induction n with
  | zero => rfl
  | succ n ih =>
    rw [List.replicate_succ, bytes_cons, ih, encode_of_narrow (by decide), List.replicate_succ]
    rfl

theorem bytes_blanked_visible (c : Char) :
    bytes (Glyph.blanked ⟨c, false⟩) = String.utf8EncodeChar c := List.append_nil _

/-- A hidden character that is no newline becomes a blank for each of its bytes. -/
theorem bytes_blanked_of_ne {c : Char} (h : c ≠ '\n') :
    bytes (Glyph.blanked ⟨c, true⟩) = (String.utf8EncodeChar c).map fun _ => byte ' ' := by
  have hidden : (true && c != '\n') = true := by simpa using h
  rw [Glyph.blanked, if_pos hidden, bytes_replicate_blank, List.map_const',
    String.length_utf8EncodeChar]

/-- A hidden character in a block comment. -/
theorem bytes_blanked_hidden (c : Char) :
    bytes (Glyph.blanked ⟨c, true⟩) = (String.utf8EncodeChar c).map blankByte := by
  by_cases h : c = '\n'
  · subst h
    rfl
  · rw [bytes_blanked_of_ne h]
    refine List.map_congr_left fun b hb => (if_neg ?_).symm
    rintro rfl
    exact h ((mem_encode_iff (by decide)).1 hb)

/-- A character at which no comment starts. -/
theorem Blanks.char {c : Char} {cs : List Char} {out : List UInt8}
    (h₁ : ∀ ds, c = '/' → cs = '/' :: ds → False) (h₂ : ∀ ds, c = '/' → cs = '*' :: ds → False)
    (h : Blanks (bytes cs) out) : Blanks (bytes (c :: cs)) (String.utf8EncodeChar c ++ out) := by
  by_cases hc : c = '/'
  · subst hc
    have next : ∀ {d : Char}, IsNarrow d → [byte '/', byte d] <+: byte '/' :: bytes cs →
        ∃ ds, cs = d :: ds := by
      rintro d hd ⟨more, hm⟩
      have first : (bytes cs).head? = some (byte d) := by
        rw [← (List.cons.inj hm).2]
        rfl
      exact List.head?_eq_some_iff.1 ((head?_bytes_iff hd).1 first)
    refine .code (fun front => ?_) (fun front => ?_) h
    · obtain ⟨ds, e⟩ := next (by decide) front
      exact h₁ ds rfl e
    · obtain ⟨ds, e⟩ := next (by decide) front
      exact h₂ ds rfl e
  · exact h.skip fun mem => hc ((mem_encode_iff (by decide)).1 mem)

theorem blanks_glyphsIn (r : Region) (cs : List Char) :
    r.Blanks (bytes cs) (bytes (blanked (glyphsIn r cs))) := by
  have blanked_cons : ∀ (g : Glyph) gs, bytes (blanked (g :: gs)) =
      bytes g.blanked ++ bytes (blanked gs) := fun g gs => bytes_append _ _
  fun_induction glyphsIn r cs with
  | case1 r =>
    cases r with
    | code => exact .done
    | lineComment =>
      refine ⟨[], [], [], rfl, List.not_mem_nil, ?_, .done, rfl⟩
      rintro b ⟨⟩
    | blockComment => exact .inr ⟨by decide, rfl⟩
  | case2 cs ih =>
    obtain ⟨inside, rest, out, hbs, first, ends, blanks, hout⟩ := ih
    rw [blanked_cons, blanked_cons, hout, bytes_cons, bytes_cons, hbs]
    exact Blanks.line first ends blanks
  | case3 cs ih =>
    rw [blanked_cons, blanked_cons, bytes_cons, bytes_cons]
    rcases ih with ⟨inside, rest, out, hbs, first, blanks, hout⟩ | ⟨never, hout⟩
    · rw [hbs, hout]
      exact Blanks.block first blanks
    · rw [hout]
      exact Blanks.unclosed never
  | case4 c cs h₁ h₂ ih =>
    rw [blanked_cons, bytes_blanked_visible]
    exact Blanks.char h₁ h₂ ih
  | case5 cs ih =>
    have newline : Blanks (bytes ('\n' :: cs)) (String.utf8EncodeChar '\n' ++ _) :=
      Blanks.char (fun _ e => absurd e (by decide)) (fun _ e => absurd e (by decide)) ih
    refine ⟨[], _, _, rfl, List.not_mem_nil, ?_, newline, ?_⟩
    · rintro b ⟨⟩
      rfl
    · rw [blanked_cons]
      rfl
  | case6 c cs h ih =>
    have hc : c ≠ '\n' := fun e => h e
    obtain ⟨inside, rest, out, hbs, first, ends, blanks, hout⟩ := ih
    refine ⟨String.utf8EncodeChar c ++ inside, rest, out, ?_, ?_, ends, blanks, ?_⟩
    · rw [bytes_cons, hbs, List.append_assoc]
    · refine fun mem => (List.mem_append.1 mem).elim (fun own => hc ?_) first
      exact (mem_encode_iff (by decide)).1 own
    · rw [blanked_cons, bytes_blanked_of_ne hc, hout, List.map_append, List.append_assoc]
  | case7 cs ih =>
    refine .inl ⟨[], _, _, rfl, by decide, ih, ?_⟩
    rw [blanked_cons, blanked_cons]
    rfl
  | case8 c cs h ih =>
    -- a closing mark at the character would be one of characters
    have never : ∀ {bs rest : List UInt8}, bs ++ rest = bytes cs → ¬closeMark <:+: bs →
        ¬closeMark <:+: String.utf8EncodeChar c ++ bs := by
      intro bs rest hbs never found
      by_cases hc : c = '*'
      · subst hc
        rcases List.infix_cons_iff.1 found with front | later
        · obtain ⟨-, more, rfl⟩ := List.cons_prefix_cons.1 front
          have first : (bytes cs).head? = some (byte '/') := by
            rw [← hbs]
            rfl
          obtain ⟨ds, e⟩ := List.head?_eq_some_iff.1 ((head?_bytes_iff (by decide)).1 first)
          exact h ds rfl e
        · exact never later
      · exact never (infix_of_append (fun mem => hc ((mem_encode_iff (by decide)).1 mem)) found)
    rw [blanked_cons, bytes_blanked_hidden, bytes_cons]
    rcases ih with ⟨inside, rest, out, hbs, first, blanks, hout⟩ | ⟨open', hout⟩
    · refine .inl ⟨String.utf8EncodeChar c ++ inside, rest, out, ?_, never hbs.symm first, blanks, ?_⟩
      · rw [hbs, List.append_assoc]
      · simp only [hout, List.map_append, List.append_assoc]
    · refine .inr ⟨never (List.append_nil _) open', ?_⟩
      rw [hout, List.map_append]

/-- The blanked text of a source is the source with its comments blanked, and nothing else is. -/
theorem blanks_iff {cs : List Char} {out : List UInt8} :
    Blanks (bytes cs) out ↔ out = bytes (blanked (glyphs cs)) :=
  have blanks : Blanks (bytes cs) (bytes (blanked (glyphs cs))) := blanks_glyphsIn .code cs
  ⟨fun h => h.unique blanks, fun h => h ▸ blanks⟩

/-- Blanking twice is blanking once. -/
theorem blanked_blanked (cs : List Char) :
    blanked (glyphs (blanked (glyphs cs))) = blanked (glyphs cs) := by
  have unmarked := (blanks_iff.2 (Eq.refl (bytes (blanked (glyphs cs))))).unmarked
  exact bytes_injective (blanks_iff.1 (Blanks.self unmarked.1 unmarked.2)).symm

end Native

end ShaderGraph
