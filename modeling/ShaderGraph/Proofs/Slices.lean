import ShaderGraph.Proofs.Blanking
import ShaderGraph.Proofs.FunctionParts

/-!
# Byte ranges in blanked sources

The pieces of a native function are looked for in the bytes of the blanked text, and cut out of the
source where they were found.

* `Slice` says which text stands between two byte offsets; then these are offsets of characters.
* `Stands` says that a range of the blanked text is one of its source, and that blanking what the
  source has there gives what the blanked text has.
* `wordsAt` are the words of a text with their places, and `slice_of_mem_wordsAt` says that they
  stand there.
* `firstFrom?`, `closing?`, `bodyFrom?`, `keyword?` and `headerStart?` look for a mark, for the
  bracket that closes another, for a body in braces, for the keyword of a function and for the place
  where a header starts behind its preamble. They find in the bytes what the readers find among the
  characters of the source (`firstFrom?_bytes`, `closing?_bytes`, `keyword?_bytes`).
-/

namespace ShaderGraph

namespace Text

/-- Between two byte offsets stands a text. -/
def Slice (cs : List Char) (i j : Nat) (part : List Char) : Prop :=
  ∃ front back, cs = front ++ (part ++ back) ∧ (bytes front).length = i ∧
    i + (bytes part).length = j

/-- Whether a byte is that of a narrow character with a property. -/
def narrowly (p : Char → Bool) (b : UInt8) : Bool := b.toNat < 128 && p (Char.ofNat b.toNat)

theorem narrowly_byte {p : Char → Bool} {c : Char} (h : IsNarrow c) : narrowly p (byte c) = p c := by
  unfold narrowly
  rw [toNat_byte h, Char.ofNat_toNat, decide_eq_true (show c.toNat < 128 from h), Bool.true_and]

theorem narrowly_of_le {p : Char → Bool} {b : UInt8} (h : 128 ≤ b.toNat) : narrowly p b = false := by
  unfold narrowly
  rw [decide_eq_false (Nat.not_lt.2 h), Bool.false_and]

/-! ### Words with their places -/

/-- Words that were found in front of a byte offset: the last one goes on if it has a place, and the
others are done. -/
structure WordScan where
  offset : Nat
  current : Option (Nat × List Char)
  done : List (Nat × List Char)

/-- Goes on by a character. -/
def WordScan.step (s : WordScan) (c : Char) : WordScan :=
  let offset := s.offset + c.utf8Size
  if isBlank c then ⟨offset, none, s.done ++ s.current.toList⟩
  else
    match s.current with
    | some (at', word) => ⟨offset, some (at', word ++ [c]), s.done⟩
    | none => ⟨offset, some (s.offset, [c]), s.done⟩

/-- The words of a text, each with the byte offset where it starts. -/
def wordsAt (cs : List Char) : List (Nat × List Char) :=
  let s := cs.foldl WordScan.step ⟨0, none, []⟩
  s.done ++ s.current.toList

section Words

variable {cs : List Char} {s : WordScan}

theorem length_bytes_cons (c : Char) (cs : List Char) :
    (bytes (c :: cs)).length = c.utf8Size + (bytes cs).length := by
  rw [bytes_cons, List.length_append, String.length_utf8EncodeChar]

theorem offset_foldl (cs : List Char) (s : WordScan) :
    (cs.foldl WordScan.step s).offset = s.offset + (bytes cs).length := by
  induction cs generalizing s with
  | nil => rfl
  | cons c cs ih =>
    have next : (s.step c).offset = s.offset + c.utf8Size := by
      unfold WordScan.step
      dsimp only
      split
      · rfl
      · split <;> rfl
    rw [List.foldl_cons, ih, next, length_bytes_cons, Nat.add_assoc]

/-- Behind a blank no word goes on. -/
theorem current_foldl (h : ∀ c ∈ cs.getLast?, isBlank c = true) :
    (cs.foldl WordScan.step ⟨0, none, []⟩).current = none := by
  rcases List.eq_nil_or_concat cs with rfl | ⟨front, c, rfl⟩
  · rfl
  · have blank := h c (by simp)
    rw [List.concat_eq_append, List.foldl_append]
    show (WordScan.step _ c).current = none
    unfold WordScan.step
    exact congrArg WordScan.current (if_pos blank)

/-- Blanks end a word. -/
theorem foldl_blanks (h : ∀ c ∈ cs, isBlank c = true) :
    (cs.foldl WordScan.step s).done ++ (cs.foldl WordScan.step s).current.toList =
      s.done ++ s.current.toList := by
  induction cs generalizing s with
  | nil => rfl
  | cons c cs ih =>
    rw [List.foldl_cons, ih fun d hd => h d (List.mem_cons_of_mem _ hd)]
    unfold WordScan.step
    rw [if_pos (h c (.head _))]
    exact List.append_nil _

/-- Other characters belong to a word. -/
theorem foldl_solid {word : List Char} {i : Nat} (h : Solid cs) (hs : s.current = some (i, word)) :
    (cs.foldl WordScan.step s).current = some (i, word ++ cs) ∧
      (cs.foldl WordScan.step s).done = s.done := by
  induction cs generalizing s word with
  | nil => exact ⟨by rw [List.append_nil]; exact hs, rfl⟩
  | cons c cs ih =>
    have step : s.step c = ⟨s.offset + c.utf8Size, some (i, word ++ [c]), s.done⟩ := by
      unfold WordScan.step
      rw [h c (.head _), hs]
      rfl
    obtain ⟨current, done⟩ := ih (fun d hd => h d (List.mem_cons_of_mem _ hd))
      (congrArg WordScan.current step)
    rw [List.append_assoc] at current
    exact ⟨current, done.trans (by rw [step])⟩

/-- A word behind others, with blanks behind it. -/
theorem wordsAt_append {front word gap : List Char} (hf : ∀ c ∈ front.getLast?, isBlank c = true)
    (hw : Solid word) (hne : word ≠ []) (hg : ∀ c ∈ gap, isBlank c = true) :
    wordsAt (front ++ (word ++ gap)) = wordsAt front ++ [((bytes front).length, word)] := by
  obtain ⟨c, cs, rfl⟩ := List.exists_cons_of_ne_nil hne
  have before := current_foldl hf
  have place : (front.foldl WordScan.step ⟨0, none, []⟩).offset = (bytes front).length :=
    (offset_foldl _ _).trans (Nat.zero_add _)
  unfold wordsAt
  dsimp only
  rw [List.foldl_append, List.foldl_append]
  generalize front.foldl WordScan.step ⟨0, none, []⟩ = s at before place ⊢
  have first : s.step c = ⟨s.offset + c.utf8Size, some (s.offset, [c]), s.done⟩ := by
    unfold WordScan.step
    rw [hw c (.head _), before]
    rfl
  obtain ⟨current, done⟩ := foldl_solid (s := s.step c) (fun d hd => hw d (.tail _ hd))
    (congrArg WordScan.current first)
  rw [foldl_blanks hg, List.foldl_cons, current, done, first, before, place]
  simp

/-- What was found in a text are words of it, each at its place. -/
structure WordScan.Finds (s : WordScan) (cs : List Char) : Prop where
  offset : s.offset = (bytes cs).length
  current : ∀ x ∈ s.current, ∃ front, cs = front ++ x.2 ∧ (bytes front).length = x.1 ∧
    x.2 ≠ [] ∧ Solid x.2
  done : ∀ x ∈ s.done, Slice cs x.1 (x.1 + (bytes x.2).length) x.2 ∧ x.2 ≠ [] ∧ Solid x.2

theorem Slice.append {i j : Nat} {part : List Char} (h : Slice cs i j part) (more : List Char) :
    Slice (cs ++ more) i j part := by
  obtain ⟨front, back, rfl, hi, hj⟩ := h
  exact ⟨front, back ++ more, by simp only [List.append_assoc], hi, hj⟩

theorem WordScan.Finds.step (h : s.Finds cs) (c : Char) : (s.step c).Finds (cs ++ [c]) := by
  have offset : s.offset + c.utf8Size = (bytes (cs ++ [c])).length := by
    rw [h.offset, bytes_append, List.length_append, length_bytes_cons]
    rfl
  have done : ∀ x ∈ s.done,
      Slice (cs ++ [c]) x.1 (x.1 + (bytes x.2).length) x.2 ∧ x.2 ≠ [] ∧ Solid x.2 :=
    fun x hx => ⟨(h.done x hx).1.append [c], (h.done x hx).2⟩
  unfold WordScan.step
  dsimp only
  split
  · refine ⟨offset, nofun, fun x hx => ?_⟩
    rcases List.mem_append.1 hx with hx | hx
    · exact done x hx
    · obtain ⟨front, rfl, hi, word⟩ := h.current x (Option.mem_toList.1 hx)
      exact ⟨⟨front, [c], List.append_assoc _ _ _, hi, rfl⟩, word⟩
  · next solid =>
    rw [Bool.not_eq_true] at solid
    split
    · next i word hc =>
      obtain ⟨front, hf, hi, -, hw⟩ := h.current _ hc
      refine ⟨offset, ?_, done⟩
      rintro _ ⟨⟩
      refine ⟨front, by rw [hf, List.append_assoc], hi, by simp, fun d hd => ?_⟩
      rcases List.mem_append.1 hd with hd | hd
      · exact hw d hd
      · rwa [List.mem_singleton.1 hd]
    · refine ⟨offset, ?_, done⟩
      rintro _ ⟨⟩
      exact ⟨cs, rfl, h.offset.symm, by simp, fun d hd => by rwa [List.mem_singleton.1 hd]⟩

theorem WordScan.Finds.foldl {front : List Char} (h : s.Finds front) :
    (cs.foldl WordScan.step s).Finds (front ++ cs) := by
  induction cs generalizing s front with
  | nil => rwa [List.append_nil]
  | cons c cs ih =>
    have next := ih (h.step c)
    rwa [List.append_assoc] at next

/-- The words of a text stand in it where they were found. -/
theorem slice_of_mem_wordsAt {x : Nat × List Char} (hx : x ∈ wordsAt cs) :
    Slice cs x.1 (x.1 + (bytes x.2).length) x.2 ∧ x.2 ≠ [] ∧ Solid x.2 := by
  have start : WordScan.Finds ⟨0, none, []⟩ [] := ⟨rfl, nofun, nofun⟩
  have found : (cs.foldl WordScan.step ⟨0, none, []⟩).Finds ([] ++ cs) := start.foldl
  rw [List.nil_append] at found
  rcases List.mem_append.1 hx with hx | hx
  · exact found.done x hx
  · obtain ⟨front, hf, hi, word⟩ := found.current x (Option.mem_toList.1 hx)
    exact ⟨⟨front, [], by rw [List.append_nil, ← hf], hi, rfl⟩, word⟩

end Words

end Text

namespace Native

open Text

/-! ### Ranges of a source -/

/-- A range of the blanked text is one of the source, and blanking what the source has there gives
what the blanked text has. -/
structure Stands (cs : List Char) (i j : Nat) (part : List Char) : Prop where
  plain : Slice cs i j part
  shown : Slice (blanked (glyphs cs)) i j (blanked (glyphs part))

/-- The number of bytes of a part of a source, blanked or not. -/
def byteCount (gs : List Glyph) : Nat := (bytes (blanked gs)).length

section Ranges

variable {gs front back : List Glyph} {g : Glyph} {c : Char} {cs : List Char}

@[simp] theorem blanked_append (as bs : List Glyph) : blanked (as ++ bs) = blanked as ++ blanked bs :=
  List.flatMap_append

@[simp] theorem written_append (as bs : List Glyph) : written (as ++ bs) = written as ++ written bs :=
  List.map_append

@[simp] theorem byteCount_nil : byteCount [] = 0 := rfl

@[simp] theorem byteCount_append (as bs : List Glyph) :
    byteCount (as ++ bs) = byteCount as + byteCount bs := by
  rw [byteCount, blanked_append, bytes_append, List.length_append]
  rfl

theorem byteCount_cons (g : Glyph) (gs : List Glyph) :
    byteCount (g :: gs) = (bytes g.blanked).length + byteCount gs := by
  show (bytes (g.blanked ++ blanked gs)).length = _
  rw [bytes_append, List.length_append]
  rfl

/-- A character of one byte, blanked or not. -/
theorem byteCount_narrow (h : IsNarrow c) (gs : List Glyph) :
    byteCount (⟨c, false⟩ :: gs) = 1 + byteCount gs := by
  rw [byteCount_cons, bytes_blanked_visible, encode_of_narrow h]
  rfl

/-- Blanking keeps the number of bytes. -/
theorem byteCount_eq (gs : List Glyph) : byteCount gs = (bytes (written gs)).length := by
  induction gs with
  | nil => rfl
  | cons g gs ih =>
    obtain ⟨c, hidden⟩ := g
    show _ = (bytes (c :: written gs)).length
    rw [byteCount_cons, ih, length_bytes_cons, ← String.length_utf8EncodeChar]
    cases hidden with
    | false => rw [bytes_blanked_visible]
    | true => rw [bytes_blanked_hidden, List.length_map]

theorem Stands.of_split {middle : List Glyph} (h : glyphs cs = front ++ (middle ++ back))
    (hm : glyphs (written middle) = middle) :
    Stands cs (byteCount front) (byteCount front + byteCount middle) (written middle) := by
  refine ⟨⟨written front, written back, ?_, (byteCount_eq _).symm, ?_⟩,
    ⟨blanked front, blanked back, ?_, rfl, ?_⟩⟩
  · rw [← written_append, ← written_append, ← h, written_glyphs]
  · rw [byteCount_eq middle]
  · rw [hm, ← blanked_append, ← blanked_append, h]
  · rw [hm]
    rfl

/-- Only characters that are shown stand in the blanked text, and blanks. -/
theorem Glyph.blanked_of_mem (h : c ∈ g.blanked) (hc : c ≠ ' ') : g.blanked = [c] ∧ g.char = c := by
  unfold Glyph.blanked at h ⊢
  split at h
  · exact absurd (List.eq_of_mem_replicate h) hc
  · next visible =>
    rw [if_neg visible, List.mem_singleton.1 h]
    exact ⟨rfl, rfl⟩

theorem Glyph.blanked_ne_nil (g : Glyph) : g.blanked ≠ [] := by
  unfold Glyph.blanked
  split
  · rw [Ne, List.replicate_eq_nil_iff]
    exact Nat.ne_of_gt g.char.utf8Size_pos
  · exact List.cons_ne_nil _ _

theorem blanked_eq_nil_iff : blanked gs = [] ↔ gs = [] := by
  cases gs with
  | nil => exact iff_of_true rfl rfl
  | cons g gs =>
    refine iff_of_false (fun h => g.blanked_ne_nil (List.append_eq_nil_iff.1 h).1) ?_
    exact List.cons_ne_nil _ _

/-- A character of the blanked text other than a blank is one of the source. -/
theorem split_of_char {before after : List Char} (h : blanked gs = before ++ c :: after)
    (hc : c ≠ ' ') : ∃ front g back, gs = front ++ g :: back ∧ blanked front = before ∧
      g.blanked = [c] ∧ g.char = c ∧ blanked back = after := by
  induction gs generalizing before with
  | nil => exact absurd h.symm (by simp [blanked])
  | cons g gs ih =>
    have later : ∀ {before'}, blanked gs = before' ++ c :: after → before = g.blanked ++ before' →
        ∃ front g' back, g :: gs = front ++ g' :: back ∧ blanked front = before ∧
          g'.blanked = [c] ∧ g'.char = c ∧ blanked back = after := by
      rintro before' hg rfl
      obtain ⟨front, g', back, rfl, rfl, own⟩ := ih hg
      exact ⟨g :: front, g', back, rfl, rfl, own⟩
    have parts : g.blanked ++ blanked gs = before ++ c :: after := h
    rcases List.append_eq_append_iff.1 parts with ⟨as, rfl, hg⟩ | ⟨as, hg, hafter⟩
    · exact later hg rfl
    · cases as with
      | nil =>
        rw [List.append_nil] at hg
        exact later (show blanked gs = [] ++ c :: after from hafter.symm)
          (hg.symm.trans (List.append_nil _).symm)
      | cons d as =>
        obtain ⟨rfl, rfl⟩ := List.cons.inj hafter
        have mem : c ∈ g.blanked := by
          rw [hg]
          exact List.mem_append_right _ (.head _)
        obtain ⟨one, char⟩ := Glyph.blanked_of_mem mem hc
        rw [one] at hg
        cases before with
        | nil =>
          obtain ⟨-, rfl⟩ := List.cons.inj hg
          exact ⟨[], g, gs, rfl, rfl, one, char, rfl⟩
        | cons e before => exact absurd (List.cons.inj hg).2 (by simp)

/-- So is a run of such characters. -/
theorem split_of_word {before word after : List Char} (h : blanked gs = before ++ (word ++ after))
    (hne : word ≠ []) (hw : ' ' ∉ word) : ∃ front middle back, gs = front ++ (middle ++ back) ∧
      blanked front = before ∧ blanked middle = word ∧ written middle = word := by
  induction word generalizing gs before with
  | nil => exact absurd rfl hne
  | cons c word ih =>
    obtain ⟨front, g, back, rfl, rfl, one, rfl, hback⟩ :=
      split_of_char h (fun e => hw (e ▸ .head _))
    by_cases last : word = []
    · subst last
      exact ⟨front, [g], back, rfl, rfl, by simp [blanked, one], rfl⟩
    · obtain ⟨none, middle, back', rfl, hnone, shown, same⟩ :=
        ih (show blanked back = [] ++ (word ++ after) from hback) last fun mem => hw (.tail _ mem)
      obtain rfl := blanked_eq_nil_iff.1 hnone
      refine ⟨front, g :: middle, back', rfl, rfl, ?_, congrArg _ same⟩
      show g.blanked ++ blanked middle = _
      rw [one, shown]
      rfl

/-- What stands in the blanked text without blanks stands there in the source. -/
theorem slice_of_word {i j : Nat} {word : List Char} (h : Slice (blanked gs) i j word)
    (hne : word ≠ []) (hw : ' ' ∉ word) : Slice (written gs) i j word := by
  obtain ⟨before, after, hgs, hi, hj⟩ := h
  obtain ⟨front, middle, back, rfl, rfl, -, rfl⟩ := split_of_word hgs hne hw
  refine ⟨written front, written back, by simp, ?_, hj⟩
  rw [← hi, ← byteCount_eq]
  rfl

theorem Glyph.hidden_of_blanked (h : g.blanked = [c]) (hc : Text.isBlank c = false) :
    g = ⟨c, false⟩ := by
  have mem : c ∈ g.blanked := h ▸ List.mem_singleton_self c
  have ne : c ≠ ' ' := by
    rintro rfl
    exact absurd hc (by decide)
  obtain ⟨-, rfl⟩ := Glyph.blanked_of_mem mem ne
  have shown : g.isBlank = false := by
    rw [Glyph.isBlank, Glyph.shown]
    split
    · next hidden =>
      rw [Glyph.blanked, if_pos hidden] at mem
      exact absurd (List.eq_of_mem_replicate mem) ne
    · exact hc
  obtain ⟨char, hidden⟩ := g
  exact congrArg (Glyph.mk char) (Glyph.hidden_of_isBlank shown)

/-- What precedes a character that is not blank stands in the source as in the blanked text. -/
theorem stands_before {i j : Nat} (h : Slice (blanked (glyphs cs)) i j [c])
    (hc : isBlank c = false) : ∃ before, Stands cs 0 i before := by
  obtain ⟨before, after, hgs, rfl, -⟩ := h
  have ne : c ≠ ' ' := by
    rintro rfl
    exact absurd hc (by decide)
  obtain ⟨front, g, back, split, rfl, one, -, -⟩ := split_of_char hgs ne
  obtain rfl := Glyph.hidden_of_blanked one hc
  have marked := (glyphsIn_front split rfl).1
  have stands : Stands cs (byteCount []) (byteCount [] + byteCount front) (written front) :=
    .of_split split marked
  rw [byteCount_nil, Nat.zero_add] at stands
  exact ⟨_, stands⟩

end Ranges

/-! ### Searches -/

/-- The offset of a mark from an offset on. -/
def firstFrom? (mark : Char) (bs : List UInt8) (start : Nat) : Option Nat :=
  ((bs.drop start).findIdx? (· == byte mark)).map (start + ·)

/-- How many bytes stand in front of the bracket with which as many are closed as are open. -/
def closesIn? (opening closing : Char) : Int → List UInt8 → Option Nat
  | _, [] => none
  | depth, b :: bs =>
    if b = byte opening then (closesIn? opening closing (depth + 1) bs).map (1 + ·)
    else if b = byte closing then
      if depth - 1 = 0 then some 0 else (closesIn? opening closing (depth - 1) bs).map (1 + ·)
    else (closesIn? opening closing depth bs).map (1 + ·)

/-- The offset of the bracket that closes the one at an offset. -/
def closing? (opening closing : Char) (bs : List UInt8) (start : Nat) : Option Nat :=
  (closesIn? opening closing 0 (bs.drop start)).map (start + ·)

/-- The offsets of the braces of the first body from an offset on. -/
def bodyFrom? (bs : List UInt8) (start : Nat) : Option (Nat × Nat) :=
  (firstFrom? '\x7b' bs start).bind fun first =>
    (closing? '\x7b' '\x7d' bs first).map fun last => (first, last)

/-- Whether the keyword of a function stands at an offset; `before` tells whether the bytes go on
from a word. -/
def keywordAt (before : Bool) (bs : List UInt8) (i : Nat) : Bool :=
  bs[i]? == some (byte 'f') && bs[i + 1]? == some (byte 'n') &&
    (bs[i + 2]?).any (narrowly endsKeyword) &&
      !(if i = 0 then before else (bs[i - 1]?).any (narrowly Name.isWordChar))

/-- The offset of the first keyword of a function. -/
def keyword? (before : Bool) (bs : List UInt8) : Option Nat :=
  (List.range bs.length).find? (keywordAt before bs)

/-- Where the signature starts in a header: at the result type, or at the precision in front of
it. -/
def headerStart? (header : List Char) : Option Nat :=
  match (wordsAt header).reverse with
  | _ :: (result, _) :: (before, word) :: _ =>
    some (if precisions.contains (String.ofList word) then before else result)
  | [_, (result, _)] => some result
  | _ => none

section Searches

variable {gs front : List Glyph} {c : Char}

/-- The bytes that a character has in the blanked text are those of what is shown. -/
theorem narrowly_bytes {p : Char → Bool} (hp : ∀ c, p c = true → IsNarrow c) (g : Glyph) :
    ∀ b ∈ bytes g.blanked, narrowly p b = p g.shown := by
  intro b hb
  obtain ⟨c, hidden⟩ := g
  unfold Glyph.blanked at hb
  unfold Glyph.shown
  split at hb
  · next blank =>
    rw [bytes_replicate_blank] at hb
    rw [List.eq_of_mem_replicate hb, if_pos blank]
    exact narrowly_byte (by decide)
  · next visible =>
    rw [if_neg visible]
    have own : b ∈ String.utf8EncodeChar c := by simpa using hb
    by_cases narrow : IsNarrow c
    · rw [encode_of_narrow narrow, List.mem_singleton] at own
      rw [own]
      exact narrowly_byte narrow
    · rw [narrowly_of_le (le_of_mem_encode narrow own)]
      exact (Bool.eq_false_iff.2 fun h => narrow (hp c h)).symm

theorem bytes_blanked_ne_nil (g : Glyph) : bytes g.blanked ≠ [] := by
  intro h
  obtain ⟨c, cs, hc⟩ := List.exists_cons_of_ne_nil g.blanked_ne_nil
  rw [hc, bytes_cons, List.append_eq_nil_iff] at h
  exact absurd h.1 (List.ne_nil_of_length_pos (length_encode_pos c))

/-- The byte of a mark stands where the mark is shown. -/
theorem byte_mem_iff (hc : IsNarrow c) (g : Glyph) : byte c ∈ bytes g.blanked → g.shown = c := by
  intro hb
  have same := narrowly_bytes (p := (· == c)) (fun d hd => beq_iff_eq.1 hd ▸ hc) g _ hb
  rw [narrowly_byte hc, beq_self_eq_true] at same
  exact beq_iff_eq.1 same.symm

theorem drop_bytes (front gs : List Glyph) :
    (bytes (blanked (front ++ gs))).drop (byteCount front) = bytes (blanked gs) := by
  rw [blanked_append, bytes_append]
  exact List.drop_left

theorem bytes_mark (hc : IsNarrow c) (gs : List Glyph) :
    bytes (blanked (⟨c, false⟩ :: gs)) = byte c :: bytes (blanked gs) := by
  show bytes (c :: blanked gs) = _
  rw [bytes_cons, encode_of_narrow hc]
  rfl

theorem bytes_blanked_cons (g : Glyph) (gs : List Glyph) :
    bytes (blanked (g :: gs)) = bytes g.blanked ++ bytes (blanked gs) := bytes_append _ _

/-- A mark is found in the bytes where it is found in the source. -/
theorem findIdx?_bytes (hc : IsNarrow c) (hb : Text.isBlank c = false) (gs : List Glyph) :
    (bytes (blanked gs)).findIdx? (· == byte c) =
      (cutAt (fun g : Glyph => g.shown == c) gs).map fun r => byteCount r.1 := by
  induction gs with
  | nil => rfl
  | cons g gs ih =>
    by_cases shown : g.shown = c
    · rw [Glyph.eq_of_shown shown hb, bytes_mark hc, cutAt]
      simp [Glyph.shown, List.findIdx?_cons]
    · have none : (bytes g.blanked).findIdx? (· == byte c) = none := by
        rw [List.findIdx?_eq_none_iff]
        refine fun b hb => beq_false_of_ne ?_
        rintro rfl
        exact shown (byte_mem_iff hc g hb)
      rw [bytes_blanked_cons, List.findIdx?_append, none, Option.none_or, ih, cutAt,
        if_neg (by simpa using shown), Option.map_map, Option.map_map]
      refine congrArg (Option.map · _) (funext fun r => ?_)
      show byteCount r.1 + _ = byteCount (g :: r.1)
      rw [byteCount_cons, Nat.add_comm]

theorem firstFrom?_bytes (hc : IsNarrow c) (hb : Text.isBlank c = false) (front gs : List Glyph) :
    firstFrom? c (bytes (blanked (front ++ gs))) (byteCount front) =
      (cutAt (fun g : Glyph => g.shown == c) gs).map fun r => byteCount (front ++ r.1) := by
  rw [firstFrom?, drop_bytes, findIdx?_bytes hc hb, Option.map_map]
  refine congrArg (Option.map · _) (funext fun r => ?_)
  rw [byteCount_append]
  rfl

variable {opening closing : Char} {depth : Int} {l bs : List UInt8}

/-- Other bytes open and close nothing. -/
theorem closesIn?_append (ho : byte opening ∉ l) (hc : byte closing ∉ l) :
    closesIn? opening closing depth (l ++ bs) =
      (closesIn? opening closing depth bs).map (l.length + ·) := by
  induction l with
  | nil =>
    simp
  | cons b l ih =>
    have opens : b ≠ byte opening := fun e => ho (e ▸ .head _)
    have closes : b ≠ byte closing := fun e => hc (e ▸ .head _)
    rw [List.cons_append, closesIn?, if_neg opens, if_neg closes,
      ih (fun mem => ho (.tail _ mem)) (fun mem => hc (.tail _ mem)), Option.map_map]
    refine congrArg (Option.map · _) (funext fun n => ?_)
    show 1 + (l.length + n) = (l.length + 1) + n
    omega

/-- A bracket is closed in the bytes where it is closed in the source. -/
theorem closesIn?_bytes (hne : opening ≠ closing) (ho : IsNarrow opening) (hc : IsNarrow closing)
    (hob : Text.isBlank opening = false) (hcb : Text.isBlank closing = false) (gs : List Glyph)
    {n : Nat} (hn : 1 ≤ n) : closesIn? opening closing n (bytes (blanked gs)) =
      (takeBracket Glyph.shown opening closing n gs).map fun r => byteCount r.1 := by
  have next : ∀ (g : Glyph) (r : Option (List Glyph × List Glyph)) k,
      (bytes g.blanked).length = k →
        (r.map fun r => byteCount r.1).map (k + ·) =
          (r.map fun r => (g :: r.1, r.2)).map fun r => byteCount r.1 := by
    rintro g r k rfl
    rw [Option.map_map, Option.map_map]
    refine congrArg (Option.map · _) (funext fun r => ?_)
    exact (byteCount_cons g r.1).symm
  have one : ∀ {c : Char}, IsNarrow c → (bytes (Glyph.blanked ⟨c, false⟩)).length = 1 := by
    intro c narrow
    rw [bytes_blanked_visible, encode_of_narrow narrow]
    rfl
  induction gs generalizing n with
  | nil => rfl
  | cons g gs ih =>
    rw [takeBracket]
    by_cases opens : g.shown = opening
    · rw [if_pos opens]
      obtain rfl := Glyph.eq_of_shown opens hob
      rw [bytes_mark ho, closesIn?, if_pos rfl, ← next _ _ 1 (one ho),
        ← ih (Nat.le_succ_of_le hn)]
      rfl
    · by_cases closes : g.shown = closing
      · rw [if_neg opens, if_pos closes]
        obtain rfl := Glyph.eq_of_shown closes hcb
        have other : byte closing ≠ byte opening := fun e => hne
          ((mem_encode_iff hc).1 (e ▸ encode_of_narrow ho ▸ List.mem_singleton_self _))
        rw [bytes_mark hc, closesIn?, if_neg other, if_pos rfl]
        by_cases outer : n ≤ 1
        · rw [if_pos outer, if_pos (by omega)]
          rfl
        · have inner : ((n - 1 : Nat) : Int) = (n : Int) - 1 := by omega
          rw [if_neg outer, if_neg (by omega), ← next _ _ 1 (one hc), ← ih (n := n - 1) (by omega),
            inner]
      · rw [if_neg opens, if_neg closes, bytes_blanked_cons,
          closesIn?_append (fun mem => opens (byte_mem_iff ho g mem))
            (fun mem => closes (byte_mem_iff hc g mem)), ih hn]
        exact next g _ _ rfl

theorem closing?_bytes (hne : opening ≠ closing) (ho : IsNarrow opening) (hc : IsNarrow closing)
    (hob : Text.isBlank opening = false) (hcb : Text.isBlank closing = false)
    (front gs : List Glyph) :
    closing? opening closing (bytes (blanked (front ++ ⟨opening, false⟩ :: gs))) (byteCount front) =
      (takeBracket Glyph.shown opening closing 1 gs).map fun r =>
        byteCount (front ++ ⟨opening, false⟩ :: r.1) := by
  rw [closing?, drop_bytes, bytes_mark ho, closesIn?, if_pos rfl,
    show (0 : Int) + 1 = ((1 : Nat) : Int) from rfl,
    closesIn?_bytes hne ho hc hob hcb gs (Nat.le_refl 1), Option.map_map, Option.map_map]
  refine congrArg (Option.map · _) (funext fun r => ?_)
  rw [byteCount_append, byteCount_narrow ho]
  rfl

/-! ### The keyword of a function -/

variable {before : Bool} {b : UInt8} {g : Glyph}

theorem keywordAt_cons (before : Bool) (b : UInt8) (bs : List UInt8) (i : Nat) :
    keywordAt before (b :: bs) (i + 1) = keywordAt (narrowly Name.isWordChar b) bs i := by
  cases i <;> rfl

theorem keyword?_cons (before : Bool) (b : UInt8) (bs : List UInt8) :
    keyword? before (b :: bs) =
      if keywordAt before (b :: bs) 0 then some 0
      else (keyword? (narrowly Name.isWordChar b) bs).map (1 + ·) := by
  have later : (keywordAt before (b :: bs) ∘ Nat.succ) =
      keywordAt (narrowly Name.isWordChar b) bs := funext (keywordAt_cons before b bs)
  rw [keyword?, List.length_cons, List.range_succ_eq_map, List.find?_cons, List.find?_map, later]
  split
  · next h => rw [if_pos h]
  · next h =>
    rw [if_neg (Bool.eq_false_iff.1 h)]
    exact congrArg (Option.map · _) (funext fun n => Nat.add_comm n 1)

/-- No keyword starts in other bytes, and they go on alike. -/
theorem keyword?_append {word : Bool} (hne : l ≠ []) (hf : byte 'f' ∉ l)
    (hw : ∀ b ∈ l, narrowly Name.isWordChar b = word) :
    keyword? before (l ++ bs) = (keyword? word bs).map (l.length + ·) := by
  induction l generalizing before with
  | nil => exact absurd rfl hne
  | cons b l ih =>
    have other : keywordAt before (b :: (l ++ bs)) 0 = false := by
      have first : (some b == some (byte 'f')) = false :=
        beq_false_of_ne fun e => hf (Option.some.inj e ▸ .head _)
      show ((some b == some (byte 'f')) && _ && _ && _) = false
      rw [first]
      rfl
    rw [List.cons_append, keyword?_cons, other, if_neg Bool.false_ne_true, hw b (.head _)]
    by_cases last : l = []
    · subst last
      rfl
    · rw [ih last (fun mem => hf (.tail _ mem)) fun c hc => hw c (.tail _ hc), Option.map_map]
      refine congrArg (Option.map · _) (funext fun n => ?_)
      show 1 + (l.length + n) = (l.length + 1) + n
      omega

theorem isNarrow_of_isWordChar (c : Char) (h : Name.isWordChar c = true) : IsNarrow c := by
  unfold IsNarrow
  change (decide (65 ≤ c.val ∧ c.val ≤ 90) || decide (97 ≤ c.val) && decide (c.val ≤ 122) ||
    decide (48 ≤ c.val) && decide (c.val ≤ 57) || c == '_') = true at h
  simp only [Bool.or_eq_true, Bool.and_eq_true, decide_eq_true_eq, beq_iff_eq,
    UInt32.le_iff_toNat_le] at h
  rcases h with ((⟨-, le⟩ | ⟨-, le⟩) | ⟨-, le⟩) | rfl
  · exact Nat.lt_of_le_of_lt le (by decide)
  · exact Nat.lt_of_le_of_lt le (by decide)
  · exact Nat.lt_of_le_of_lt le (by decide)
  · decide

theorem isNarrow_of_endsKeyword (c : Char) (h : endsKeyword c = true) : IsNarrow c := by
  unfold endsKeyword at h
  simp only [Bool.or_eq_true, beq_iff_eq] at h
  rcases h with (((rfl | rfl) | rfl) | rfl) | rfl <;> decide

/-- The first byte of what is shown. -/
theorem head_bytes (g : Glyph) (gs : List Glyph) :
    ∃ b ∈ bytes g.blanked, (bytes (blanked (g :: gs)))[0]? = some b := by
  obtain ⟨b, bs, hb⟩ := List.exists_cons_of_ne_nil (bytes_blanked_ne_nil g)
  exact ⟨b, hb ▸ .head _, by rw [bytes_blanked_cons, hb]; rfl⟩

/-- What follows the first letter of a keyword. -/
theorem keywordAt_mark (h : keywordAt before (byte 'f' :: bs) 0 = true) :
    bs[0]? = some (byte 'n') ∧ (bs[1]?).any (narrowly endsKeyword) = true ∧ before = false := by
  simp only [keywordAt, Bool.and_eq_true, beq_iff_eq, Bool.not_eq_true', if_pos] at h
  exact ⟨h.1.1.2, h.1.2, h.2⟩

/-- The keyword is found in the bytes where it is found in the source. -/
theorem keyword?_bytes {rest : List Glyph} (h : afterKeyword? before gs = some rest) :
    ∃ front, gs = front ++ ⟨'f', false⟩ :: ⟨'n', false⟩ :: rest ∧
      keyword? before (bytes (blanked gs)) = some (byteCount front) := by
  induction gs generalizing before with
  | nil => cases h
  | cons g gs ih =>
    cases gs with
    | nil => cases h
    | cons m gs =>
    cases gs with
    | nil => cases h
    | cons k gs =>
      obtain ⟨b, hb, head⟩ := head_bytes k gs
      have ends := narrowly_bytes isNarrow_of_endsKeyword k b hb
      unfold afterKeyword? at h
      dsimp only at h
      split at h
      · next here =>
        cases h
        simp only [Bool.and_eq_true, Bool.not_eq_true', beq_iff_eq] at here
        obtain ⟨⟨⟨rfl, hg⟩, hm⟩, hk⟩ := here
        obtain rfl := Glyph.eq_of_shown hg (by decide)
        obtain rfl := Glyph.eq_of_shown hm (by decide)
        refine ⟨[], rfl, ?_⟩
        have start : keywordAt false (byte 'f' :: byte 'n' :: bytes (blanked (k :: gs))) 0 = true := by
          show (_ && _ && ((bytes (blanked (k :: gs)))[0]?).any _ && _) = true
          rw [head]
          exact congrArg (true && true && · && true) (ends.trans hk)
        rw [bytes_mark (by decide), bytes_mark (by decide), keyword?_cons, if_pos start]
        rfl
      · next here =>
        obtain ⟨front, hgs, found⟩ := ih h
        refine ⟨g :: front, by rw [hgs]; rfl, ?_⟩
        by_cases shown : g.shown = 'f'
        · obtain rfl := Glyph.eq_of_shown shown (by decide)
          -- what stands behind the letter does not make it a keyword
          have other : keywordAt before (byte 'f' :: bytes (blanked (m :: k :: gs))) 0 = false := by
            rw [Bool.eq_false_iff]
            intro start
            obtain ⟨next, ends', fresh⟩ := keywordAt_mark start
            obtain ⟨b', hb', head'⟩ := head_bytes m (k :: gs)
            obtain rfl := Option.some.inj (head'.symm.trans next)
            obtain rfl := Glyph.eq_of_shown (byte_mem_iff (by decide) m hb') (by decide)
            rw [bytes_mark (by decide), List.getElem?_cons_succ, head] at ends'
            rw [Option.any_some, ends] at ends'
            exact here (by rw [fresh, ends']; rfl)
          have found' : keyword? (Name.isWordChar 'f') _ = some (byteCount front) := found
          rw [bytes_mark (by decide), keyword?_cons, other, if_neg Bool.false_ne_true,
            narrowly_byte (by decide), found', byteCount_narrow (by decide)]
          rfl
        · rw [bytes_blanked_cons, keyword?_append (bytes_blanked_ne_nil g)
            (fun mem => shown (byte_mem_iff (by decide) g mem))
            (narrowly_bytes isNarrow_of_isWordChar g), found, byteCount_cons]
          rfl

end Searches

end Native

end ShaderGraph
