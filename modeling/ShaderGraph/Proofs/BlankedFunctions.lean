import ShaderGraph.Proofs.Slices

/-!
# Functions in blanked sources

The readers of both dialects work on the characters of a source. What they take from it is what a
search through the bytes of the blanked text finds (`Places.Found`), cut out of the source at the
offsets that were found: these are offsets of characters of the source, and the same words stand there
(`blanking`).
-/

namespace ShaderGraph.Native

open Text

section Pieces

variable {cs : List Char} {front block rest gs : List Glyph} {g : Glyph}

/-- What a source goes on with from a visible character is marked as it is in the whole source. -/
theorem glyphsIn_back {r : Region} (h : glyphsIn r cs = front ++ g :: rest)
    (hg : g.hidden = false) : glyphs (written (g :: rest)) = g :: rest := by
  fun_induction glyphsIn r cs generalizing front with
  | case1 => simp at h
  | case2 cs ih | case3 cs ih | case7 cs ih =>
    cases front with
    | nil => simp [← (List.cons.inj h).1] at hg
    | cons f₁ front =>
      obtain ⟨-, htail⟩ := List.cons.inj h
      cases front with
      | nil => simp [← (List.cons.inj htail).1] at hg
      | cons f₂ front => exact ih (List.cons.inj htail).2
  | case4 c cs h₁ h₂ ih =>
    cases front with
    | nil =>
      obtain ⟨rfl, rfl⟩ := List.cons.inj h
      show glyphsIn .code (c :: written _) = _
      rw [written_glyphsIn]
      exact glyphsIn.eq_4 _ _ h₁ h₂
    | cons f front => exact ih (List.cons.inj h).2
  | case5 cs ih =>
    cases front with
    | nil =>
      obtain ⟨rfl, rfl⟩ := List.cons.inj h
      show glyphsIn .code ('\n' :: written _) = _
      rw [written_glyphsIn]
      exact glyphsIn.eq_4 _ _ (by simp) (by simp)
    | cons f front => exact ih (List.cons.inj h).2
  | case6 c cs _ ih | case8 c cs _ ih =>
    cases front with
    | nil => simp [← (List.cons.inj h).1] at hg
    | cons f front => exact ih (List.cons.inj h).2

/-- A block in braces is marked as it is in the whole source. -/
theorem glyphs_block
    (h : glyphs cs = front ++ ⟨'\x7b', false⟩ :: (block ++ ⟨'\x7d', false⟩ :: rest)) :
    glyphs ('\x7b' :: written block ++ ['\x7d']) =
      ⟨'\x7b', false⟩ :: block ++ [⟨'\x7d', false⟩] := by
  have back : glyphs ('\x7b' :: (written block ++ '\x7d' :: written rest)) =
      ⟨'\x7b', false⟩ :: block ++ ⟨'\x7d', false⟩ :: rest := by
    have back := glyphsIn_back h rfl
    rwa [written, List.map_cons, List.map_append] at back
  obtain ⟨marked, closed⟩ := glyphsIn_front back rfl
  have open' : written (⟨'\x7b', false⟩ :: block) = '\x7b' :: written block := rfl
  rw [open'] at marked closed
  rw [← List.cons_append] at back
  have whole := back
  rw [glyphs, glyphsIn_append _ _ _ (by decide) (by decide), marked] at whole
  have last := List.append_cancel_left whole
  rw [glyphs, glyphsIn_append _ _ _ (by decide) (by decide), marked]
  refine congrArg (fun last => ⟨'\x7b', false⟩ :: block ++ last) ?_
  -- the brace is code behind the block
  cases hr : Region.code.after ('\x7b' :: written block) with
  | code => rfl
  | lineComment =>
    rw [hr] at last
    exact absurd (congrArg Glyph.hidden (List.cons.inj last).1) (by decide)
  | blockComment => exact absurd hr closed

theorem stands_block
    (h : glyphs cs = front ++ ⟨'\x7b', false⟩ :: (block ++ ⟨'\x7d', false⟩ :: rest)) :
    Stands cs (byteCount front) (byteCount (front ++ ⟨'\x7b', false⟩ :: block) + 1)
      ('\x7b' :: written block ++ ['\x7d']) := by
  have marked := glyphs_block h
  have text : written (⟨'\x7b', false⟩ :: block ++ [⟨'\x7d', false⟩]) =
      '\x7b' :: written block ++ ['\x7d'] := by simp [written]
  have split : glyphs cs =
      front ++ ((⟨'\x7b', false⟩ :: block ++ [⟨'\x7d', false⟩]) ++ rest) := by
    rw [h]
    simp
  have stands := Stands.of_split split (by rw [text, marked])
  have extent : byteCount (front ++ ⟨'\x7b', false⟩ :: block) + 1 =
      byteCount front + byteCount (⟨'\x7b', false⟩ :: block ++ [⟨'\x7d', false⟩]) := by
    rw [byteCount_append, byteCount_append, byteCount_narrow (by decide) [], byteCount_nil,
      Nat.add_assoc]
  rwa [text, ← extent] at stands

/-- The byte of a mark is the mark. -/
theorem char_of_byte {c : Char} (hc : IsNarrow c) {i : Nat} (h : (bytes cs)[i]? = some (byte c)) :
    ∃ before after, cs = before ++ c :: after ∧ (bytes before).length = i := by
  induction cs generalizing i with
  | nil => cases h
  | cons d cs ih =>
    rw [bytes_cons, List.getElem?_append] at h
    split at h
    · next inside =>
      obtain rfl := (mem_encode_iff hc).1 (List.mem_of_getElem? h)
      rw [encode_of_narrow hc] at inside
      refine ⟨[], cs, rfl, ?_⟩
      exact (Nat.lt_one_iff.1 inside).symm
    · next outside =>
      obtain ⟨before, after, rfl, hi⟩ := ih h
      refine ⟨d :: before, after, rfl, ?_⟩
      rw [bytes_cons, List.length_append, hi]
      omega

/-- A body that is found in the blanked text stands in the source. -/
theorem stands_of_bodyFrom? {start first last : Nat}
    (h : bodyFrom? (bytes (blanked (glyphs cs))) start = some (first, last)) :
    ∃ body, Stands cs first (last + 1) body := by
  obtain ⟨first', hfirst, hlast⟩ := Option.bind_eq_some_iff.1 h
  obtain ⟨last', hclosing, same⟩ := Option.map_eq_some_iff.1 hlast
  cases same
  obtain ⟨n, hn, rfl⟩ := Option.map_eq_some_iff.1 hfirst
  obtain ⟨inside, mark, -⟩ := List.findIdx?_eq_some_iff_getElem.1 hn
  have found : (bytes (blanked (glyphs cs)))[start + n]? = some (byte '\x7b') := by
    rw [← List.getElem?_drop, List.getElem?_eq_getElem inside]
    exact congrArg some (beq_iff_eq.1 mark)
  obtain ⟨before, after, hout, hi⟩ := char_of_byte (by decide) found
  obtain ⟨front, g, back, hsplit, rfl, one, -, -⟩ := split_of_char hout (by decide)
  obtain rfl := Glyph.hidden_of_blanked one (by decide)
  rw [← hi] at hclosing ⊢
  rw [hsplit, show (bytes (blanked front)).length = byteCount front from rfl,
    closing?_bytes (by decide) (by decide) (by decide) (by decide) (by decide)] at hclosing
  obtain ⟨⟨block, rest⟩, htake, rfl⟩ := Option.map_eq_some_iff.1 hclosing
  obtain ⟨-, rfl⟩ := (takeBracket_shown_iff (by decide) (by decide)).1 htake
  exact ⟨_, stands_block hsplit⟩

end Pieces

/-! ### Where the parts of a function are found -/

/-- The offsets of the parentheses and of the braces of a function. -/
structure Places where
  paren : Nat
  close : Nat
  first : Nat
  last : Nat

/-- They are found in the bytes from an offset on. -/
structure Places.Found (q : Places) (bs : List UInt8) (start : Nat) : Prop where
  paren : firstFrom? '(' bs start = some q.paren
  close : closing? '(' ')' bs q.paren = some q.close
  body : bodyFrom? bs (q.close + 1) = some (q.first, q.last)

/-- The parts of a function that the readers cut out are found, and its body stands in the source. -/
theorem found_of_cuts {cs : List Char} {p : Parts} {gs : List Glyph} (front lead : List Glyph)
    (h : p.Cuts gs)
    (hcs : glyphs cs = front ++ (lead ++ gs)) (hl : ∀ g ∈ lead, g.shown ≠ '(') :
    ∃ q : Places, q.Found (bytes (blanked (glyphs cs))) (byteCount front) ∧
      q.paren = byteCount (front ++ (lead ++ p.header)) ∧
        Stands cs q.first (q.last + 1) p.text.toList := by
  let opened := front ++ (lead ++ p.header)
  let closed := opened ++ ⟨'(', false⟩ :: p.inside
  let braced := closed ++ ⟨')', false⟩ :: p.between
  have atParen : glyphs cs = opened ++ ⟨'(', false⟩ :: (p.inside ++ ⟨')', false⟩ ::
      (p.between ++ ⟨'\x7b', false⟩ :: (p.block ++ ⟨'\x7d', false⟩ :: p.rest))) := by
    rw [hcs, h.whole, Parts.glyphs]
    simp only [opened, List.append_assoc]
  have atClose : glyphs cs = (closed ++ [⟨')', false⟩]) ++
      (p.between ++ ⟨'\x7b', false⟩ :: (p.block ++ ⟨'\x7d', false⟩ :: p.rest)) := by
    rw [atParen]
    simp [closed]
  have atBrace : glyphs cs = braced ++ ⟨'\x7b', false⟩ :: (p.block ++ ⟨'\x7d', false⟩ :: p.rest) := by
    rw [atClose]
    simp [braced]
  refine ⟨⟨byteCount opened, byteCount closed, byteCount braced,
    byteCount (braced ++ ⟨'\x7b', false⟩ :: p.block)⟩, ⟨?_, ?_, ?_⟩, rfl, ?_⟩
  · rw [hcs, firstFrom?_bytes (by decide) (by decide)]
    have cut : cutAt (fun g : Glyph => g.shown == '(') (lead ++ gs) = some (lead ++ p.header, _) :=
      (cutAt_shown_iff (by decide)).2 ⟨fun g hg => (List.mem_append.1 hg).elim (hl g) (h.header g),
        by rw [h.whole, Parts.glyphs, List.append_assoc]⟩
    rw [cut]
    rfl
  · rw [atParen, closing?_bytes (by decide) (by decide) (by decide) (by decide) (by decide),
      (takeBracket_shown_iff (by decide) (by decide)).2 ⟨h.inside, rfl⟩]
    rfl
  · have past : byteCount closed + 1 = byteCount (closed ++ [⟨')', false⟩]) := by
      rw [byteCount_append closed, byteCount_narrow (by decide) [], byteCount_nil]
    have brace : firstFrom? '\x7b' (bytes (blanked (glyphs cs))) (byteCount closed + 1) =
        some (byteCount braced) := by
      rw [atClose, past, firstFrom?_bytes (by decide) (by decide),
        (cutAt_shown_iff (by decide)).2 ⟨h.between, rfl⟩]
      simp [braced]
    have last : closing? '\x7b' '\x7d' (bytes (blanked (glyphs cs))) (byteCount braced) =
        some (byteCount (braced ++ ⟨'\x7b', false⟩ :: p.block)) := by
      rw [atBrace, closing?_bytes (by decide) (by decide) (by decide) (by decide) (by decide),
        (takeBracket_shown_iff (by decide) (by decide)).2 ⟨h.block, rfl⟩]
      rfl
    exact Option.bind_eq_some_iff.2 ⟨_, brace, Option.map_eq_some_iff.2 ⟨_, last, rfl⟩⟩
  · rw [Parts.text, String.toList_ofList]
    exact stands_block atBrace

/-! ### Headers -/

section Headers

variable {gs back rest : List Glyph} {word : List Char}

theorem Glyph.isBlank_of_mem {g : Glyph} (h : g.isBlank = true) {c : Char} (hc : c ∈ g.blanked) :
    Text.isBlank c = true := by
  unfold Glyph.isBlank Glyph.shown at h
  unfold Glyph.blanked at hc
  split at hc
  · rw [List.eq_of_mem_replicate hc]
    exact isBlank_space
  · next visible =>
    rw [if_neg visible] at h
    rwa [List.mem_singleton.1 hc]

theorem isBlank_of_mem_blanked (h : ∀ g ∈ gs, g.isBlank = true) {c : Char} (hc : c ∈ blanked gs) :
    Text.isBlank c = true := by
  obtain ⟨g, hg, hc⟩ := List.mem_flatMap.1 hc
  exact Glyph.isBlank_of_mem (h g hg) hc

theorem isBlank_getLast?_blanked (h : ∀ g ∈ gs.getLast?, g.isBlank = true) :
    ∀ c ∈ (blanked gs).getLast?, Text.isBlank c = true := by
  rcases List.eq_nil_or_concat gs with rfl | ⟨front, g, rfl⟩
  · exact fun _ hc => nomatch hc
  · have blank := h g (by simp)
    intro c hc
    have text : blanked (front.concat g) = blanked front ++ g.blanked := by simp [blanked]
    rw [text, List.getLast?_append_of_ne_nil _ g.blanked_ne_nil] at hc
    exact Glyph.isBlank_of_mem blank (List.mem_of_getLast? hc)

/-- Characters that are not blank are visible. -/
theorem eq_visible (h : ∀ g ∈ gs, g.isBlank = false) : gs = visible (written gs) := by
  induction gs with
  | nil => rfl
  | cons g gs ih =>
    have own : g = ⟨g.char, false⟩ :=
      congrArg (Glyph.mk g.char) (Glyph.hidden_of_isBlank (h g (.head _)))
    show g :: gs = ⟨g.char, false⟩ :: visible (written gs)
    rw [← ih fun g hg => h g (.tail _ hg), ← own]

/-- The last word of a text, with the blanks behind it. -/
theorem lastWord?_parts (h : lastWord? back = some (word, rest)) :
    ∃ gap, back.reverse = rest.reverse ++ (visible word ++ gap) ∧ word ≠ [] ∧ Solid word ∧
      (∀ g ∈ gap, g.isBlank = true) ∧ ∀ g ∈ rest.reverse.getLast?, g.isBlank = true := by
  unfold lastWord? at h
  split at h
  · cases h
  · next gs hne =>
    obtain ⟨rfl, rfl⟩ := Prod.mk.inj (Option.some.inj h)
    let run := (back.dropWhile Glyph.isBlank).takeWhile fun g => !g.isBlank
    have solid : ∀ g ∈ run.reverse, g.isBlank = false := fun g hg => by
      simpa using List.mem_takeWhile_imp (List.mem_reverse.1 hg)
    have word : blanked run.reverse = written run.reverse := by
      rw [eq_visible solid, blanked_visible, written_visible]
    refine ⟨(back.takeWhile Glyph.isBlank).reverse, ?_, ?_, ?_, ?_, ?_⟩
    · rw [word, ← eq_visible solid, ← List.append_assoc, ← List.reverse_append, ← List.reverse_append,
        List.takeWhile_append_dropWhile, List.takeWhile_append_dropWhile]
    · rw [Ne, blanked_eq_nil_iff, List.reverse_eq_nil_iff]
      intro none
      cases hback : back.dropWhile Glyph.isBlank with
      | nil => exact hne hback
      | cons g gs =>
        have first := List.head?_dropWhile_not Glyph.isBlank back
        rw [hback] at first none
        rw [List.takeWhile_cons_of_pos (by simpa using first)] at none
        cases none
    · rw [word]
      intro c hc
      obtain ⟨g, hg, rfl⟩ := List.mem_map.1 hc
      have shown := solid g hg
      rwa [Glyph.isBlank, Glyph.shown_of_visible (Glyph.hidden_of_isBlank shown)] at shown
    · exact fun g hg => List.mem_takeWhile_imp (List.mem_reverse.1 hg)
    · rw [List.getLast?_reverse]
      intro g hg
      have first := List.head?_dropWhile_not (fun g => !g.isBlank) (back.dropWhile Glyph.isBlank)
      rw [Option.mem_def.1 hg] at first
      simpa using first

/-- The last word is found behind the others. -/
theorem wordsAt_of_lastWord? (h : lastWord? back = some (word, rest)) :
    wordsAt (blanked back.reverse) =
      wordsAt (blanked rest.reverse) ++ [(byteCount rest.reverse, word)] := by
  obtain ⟨gap, split, hne, solid, blanks, ends⟩ := lastWord?_parts h
  rw [split, blanked_append, blanked_append, blanked_visible]
  exact wordsAt_append (isBlank_getLast?_blanked ends) solid hne
    fun c hc => isBlank_of_mem_blanked blanks hc

theorem wordsAt_of_lastWord?_none (h : lastWord? back = none) :
    wordsAt (blanked back.reverse) = [] := by
  have blanks : ∀ g ∈ back.reverse, g.isBlank = true := by
    unfold lastWord? at h
    split at h
    · next none => exact fun g hg => List.dropWhile_eq_nil_iff.1 none g (List.mem_reverse.1 hg)
    · cases h
  exact foldl_blanks fun c hc => isBlank_of_mem_blanked blanks hc

/-- A word starts with a visible character. -/
theorem next_of_lastWord? (h : lastWord? back = some (word, rest)) :
    ∃ g more, back.reverse = rest.reverse ++ g :: more ∧ g.hidden = false := by
  obtain ⟨gap, split, hne, -⟩ := lastWord?_parts h
  obtain ⟨c, cs, rfl⟩ := List.exists_cons_of_ne_nil hne
  exact ⟨⟨c, false⟩, visible cs ++ gap, split, rfl⟩

/-- What a header gives, and where its signature starts. -/
theorem glslHeader_places {header : List Glyph} {preamble result name : String}
    (h : glslHeader header = .ok (preamble, result, name)) :
    ∃ front g more, header = front ++ g :: more ∧ g.hidden = false ∧
      headerStart? (blanked header) = some (byteCount front) ∧
      preamble = String.ofList (Text.trim (written front)) ∧
      ∃ words i j, wordsAt (blanked header) = words ++ [(i, result.toList), (j, name.toList)] := by
  unfold glslHeader at h
  split at h
  · cases h
  · next name' rest₁ hname =>
    split at h
    · cases h
    · next result' rest₂ hresult =>
      split at h
      · cases h
        have found : wordsAt (blanked header) = wordsAt (blanked rest₂.reverse) ++
            [(byteCount rest₂.reverse, result'), (byteCount rest₁.reverse, name')] := by
          have last := wordsAt_of_lastWord? hname
          rw [List.reverse_reverse, wordsAt_of_lastWord? hresult, List.append_assoc] at last
          exact last
        obtain ⟨g₁, more₁, split₁, -⟩ := next_of_lastWord? hname
        obtain ⟨g₂, more₂, split₂, visible₂⟩ := next_of_lastWord? hresult
        rw [List.reverse_reverse] at split₁
        have signature : header = rest₂.reverse ++ g₂ :: (more₂ ++ g₁ :: more₁) := by
          rw [split₁, split₂]
          simp
        have words : ∃ words i j, wordsAt (blanked header) =
            words ++ [(i, (String.ofList result').toList), (j, (String.ofList name').toList)] := by
          rw [String.toList_ofList, String.toList_ofList]
          exact ⟨_, _, _, found⟩
        unfold dropPrecision
        cases hthird : lastWord? rest₂ with
        | none =>
          refine ⟨_, _, _, signature, visible₂, ?_, rfl, words⟩
          rw [headerStart?, found, wordsAt_of_lastWord?_none hthird]
          rfl
        | some third =>
          obtain ⟨word, rest₃⟩ := third
          rw [wordsAt_of_lastWord? hthird] at found
          have start : headerStart? (blanked header) =
              some (if precisions.contains (String.ofList word) then byteCount rest₃.reverse
                else byteCount rest₂.reverse) := by
            rw [headerStart?, found, List.reverse_append, List.reverse_append]
            rfl
          by_cases precision : precisions.contains (String.ofList word) = true
          · obtain ⟨g₃, more₃, split₃, visible₃⟩ := next_of_lastWord? hthird
            have precise : header =
                rest₃.reverse ++ g₃ :: (more₃ ++ g₂ :: (more₂ ++ g₁ :: more₁)) := by
              rw [signature, split₃]
              simp
            refine ⟨_, _, _, precise, visible₃, ?_, ?_, words⟩
            · rw [start, if_pos precision]
            · simp only [if_pos precision]
          · refine ⟨_, _, _, signature, visible₂, ?_, ?_, words⟩
            · rw [start, if_neg precision]
            · simp only [if_neg precision]
      · cases h

end Headers

/-! ### Blanking and reading -/

/-- What a GLSL function has from the source: its preamble and its body are cut out where they are
found in the blanked text, and the words of its header stand there in both. -/
structure GlslCut (cs : List Char) (f : Declaration) (q : Places) (start : Nat) : Prop where
  found : q.Found (bytes (blanked (glyphs cs))) 0
  header : ∃ header, Slice (blanked (glyphs cs)) 0 q.paren header ∧
    headerStart? header = some start ∧
    (∀ x ∈ wordsAt header, Slice cs x.1 (x.1 + (bytes x.2).length) x.2) ∧
    ∃ words i j result, wordsAt header = words ++ [(i, result), (j, f.name.toList)] ∧
      glslType (String.ofList result) = .ok f.result
  preamble : ∃ before, Stands cs 0 start before ∧
    f.form = .glsl (String.ofList (trim before))
  body : Stands cs q.first (q.last + 1) f.body.toList

/-- What a WGSL function has from the source. -/
structure WgslCut (cs : List Char) (f : Declaration) (q : Places) (start : Nat) : Prop where
  keyword : keyword? false (bytes (blanked (glyphs cs))) = some start
  word : Slice cs start (start + 2) ['f', 'n']
  found : q.Found (bytes (blanked (glyphs cs))) start
  name : ∃ header, Slice (blanked (glyphs cs)) (start + 2) q.paren header ∧
    f.name = String.ofList (trim header)
  body : Stands cs q.first (q.last + 1) f.body.toList

/-- A part of the source, blanked, stands in the blanked text. -/
theorem slice_blanked {cs : List Char} {front middle back : List Glyph}
    (h : glyphs cs = front ++ (middle ++ back)) : Slice (blanked (glyphs cs)) (byteCount front)
      (byteCount front + byteCount middle) (blanked middle) :=
  ⟨blanked front, blanked back, by rw [h, blanked_append, blanked_append], rfl, rfl⟩

/-- A word of the blanked text stands in the source. -/
theorem slice_of_solid {cs word : List Char} {i j : Nat} (h : Slice (blanked (glyphs cs)) i j word)
    (hne : word ≠ []) (hw : Solid word) : Slice cs i j word := by
  have stands := slice_of_word h hne fun mem => absurd (hw _ mem) (by decide)
  rwa [written_glyphs] at stands

theorem glslCut_of_readGlsl {source : String} {f : Declaration} (h : readGlsl source = .ok f) :
    ∃ q start, GlslCut source.toList f q start := by
  obtain ⟨p, cuts, ⟨⟨preamble, result, header, type, form⟩, -⟩, text⟩ := readGlsl_iff.1 h
  obtain ⟨q, found, paren, body⟩ := found_of_cuts [] [] cuts rfl nofun
  obtain ⟨front, g, more, split, shown, start, rfl, words, i, j, hwords⟩ := glslHeader_places header
  have whole : glyphs source.toList = [] ++ (p.header ++ ⟨'(', false⟩ :: (p.inside ++
      ⟨')', false⟩ :: (p.between ++ ⟨'\x7b', false⟩ :: (p.block ++ ⟨'\x7d', false⟩ :: p.rest)))) :=
    cuts.whole
  have atHeader := slice_blanked whole
  rw [byteCount_nil, Nat.zero_add] at atHeader
  have before := whole
  rw [split, List.append_assoc] at before
  have stands := Stands.of_split before (glyphsIn_front before shown).1
  rw [byteCount_nil, Nat.zero_add] at stands
  refine ⟨q, byteCount front, found, ⟨blanked p.header, paren ▸ atHeader, start, fun x hx => ?_,
    words, i, j, result.toList, hwords, by rwa [String.ofList_toList]⟩, ⟨_, stands, form⟩,
    text ▸ body⟩
  obtain ⟨inHeader, hne, solid⟩ := slice_of_mem_wordsAt hx
  refine slice_of_solid ?_ hne solid
  rw [whole, List.nil_append, blanked_append]
  exact inHeader.append _

theorem wgslCut_of_readWgsl {source : String} {f : Declaration} (h : readWgsl source = .ok f) :
    ∃ q start, WgslCut source.toList f q start := by
  obtain ⟨gs, keyword, p, cuts, signs, text⟩ := readWgsl_iff.1 h
  obtain ⟨front, split, start⟩ := keyword?_bytes keyword
  let mark : List Glyph := [⟨'f', false⟩, ⟨'n', false⟩]
  have whole : glyphs source.toList = front ++ (mark ++ gs) := split
  have unopened : ∀ g ∈ mark, g.shown ≠ '(' := by decide
  obtain ⟨q, found, paren, body⟩ := found_of_cuts front mark cuts whole unopened
  have two : byteCount mark = 2 := rfl
  have atName : glyphs source.toList = (front ++ mark) ++ (p.header ++ ⟨'(', false⟩ :: (p.inside ++
      ⟨')', false⟩ :: (p.between ++ ⟨'\x7b', false⟩ :: (p.block ++ ⟨'\x7d', false⟩ :: p.rest)))) := by
    rw [whole, cuts.whole, List.append_assoc]
    rfl
  have name := slice_blanked atName
  rw [byteCount_append, two] at name
  rw [byteCount_append, byteCount_append, two, ← Nat.add_assoc] at paren
  have word := slice_blanked whole
  rw [two] at word
  exact ⟨q, byteCount front, start, slice_of_solid word (by decide) (by decide), found,
    ⟨_, paren ▸ name, signs.name⟩, text ▸ body⟩

/-- Blanking a source. -/
theorem blanking (source : String) :
    (∀ out, Blanks (bytes source.toList) out ↔
        out = bytes (blanked (glyphs source.toList))) ∧
      (bytes (blanked (glyphs source.toList))).length = (bytes source.toList).length ∧
      ¬lineMark <:+: bytes (blanked (glyphs source.toList)) ∧
      ¬openMark <:+: bytes (blanked (glyphs source.toList)) ∧
      blanked (glyphs (blanked (glyphs source.toList))) = blanked (glyphs source.toList) ∧
      (∀ i j word, Slice (blanked (glyphs source.toList)) i j word → word ≠ [] → ' ' ∉ word →
        Slice source.toList i j word) ∧
      (∀ i j c, Slice (blanked (glyphs source.toList)) i j [c] → Text.isBlank c = false →
        ∃ before, Stands source.toList 0 i before) ∧
      (∀ start first last, bodyFrom? (bytes (blanked (glyphs source.toList))) start =
        some (first, last) → ∃ body, Stands source.toList first (last + 1) body) ∧
      (∀ f, readGlsl source = .ok f → ∃ q start, GlslCut source.toList f q start) ∧
      ∀ f, readWgsl source = .ok f → ∃ q start, WgslCut source.toList f q start := by
  have blanks : Blanks (bytes source.toList) (bytes (blanked (glyphs source.toList))) :=
    blanks_iff.2 rfl
  refine ⟨fun _ => blanks_iff, blanks.length_eq, blanks.unmarked.1, blanks.unmarked.2,
    blanked_blanked _, fun i j word h hne hw => ?_, fun _ _ _ h hc => stands_before h hc,
    fun _ _ _ h => stands_of_bodyFrom? h, fun _ h => glslCut_of_readGlsl h,
    fun _ h => wgslCut_of_readWgsl h⟩
  have stands := slice_of_word h hne hw
  rwa [written_glyphs] at stands

/-- A source with comments before, inside and behind the signature, the last of which is not
closed. -/
def annotated : String := "// é\nfloat f(/* ∀ */ float x) \x7b return x; // \x7d\n\x7d /* end"

/-- The comments are blanked byte by byte, and the function is cut out of the source. -/
theorem annotated_blanking :
    blanked (glyphs annotated.toList) =
        "     \nfloat f(          float x) \x7b return x;     \n\x7d       ".toList ∧
      ∃ f, readGlsl annotated = .ok f ∧ f.body = "\x7b return x; // \x7d\n\x7d" ∧
        ∃ q start, GlslCut annotated.toList f q start := by
  refine ⟨by decide +kernel, ?_⟩
  have read : (readGlsl annotated).isOk = true := by decide +kernel
  obtain ⟨f, hf⟩ := ok_of_isOk read
  refine ⟨f, hf, ?_, (blanking annotated).2.2.2.2.2.2.2.2.1 f hf⟩
  have body : (readGlsl annotated).toOption.map Declaration.body =
      some "\x7b return x; // \x7d\n\x7d" := by decide +kernel
  rw [hf] at body
  exact Option.some.inj body

end ShaderGraph.Native
