import ShaderGraph.Proofs.TypeNames
import ShaderGraph.Proofs.WgslText

/-!
# WGSL types read back

* `Spells` is the grammar of types in a text without blanks: a word, or an array of such a text. It
  is a single item of a list (`Spells.whole`), so that the element type and the length of an array
  come apart at the comma between them, and it reads as the type (`Spells.reads`).
* `wgslTokens` are the tokens of a type in WGSL. A text is `Spaced` over some tokens when it
  consists of them, with any blanks before, between and behind them; without its blanks it is the
  tokens in a row (`compact_of_spaced`), which spell the type (`spells_tokens`).
* `wgsl_types_read_back`: what the backend writes for a type is such a text, and all of them read as
  the type.
-/

namespace ShaderGraph.Native

/-! ### Spellings -/

/-- The types that are no arrays, under all their names. -/
def wgslWords : List (String × ValueType) :=
  let kinds := [ScalarKind.float, .int, .uint, .bool]
  let widths := [Width.two, .three, .four]
  kinds.map (fun k => (Dialect.wgslScalar k, .scalar k)) ++
  widths.flatMap (fun w =>
    kinds.map fun k => (s!"vec{w.toNat}<{Dialect.wgslScalar k}>", .vector k w)) ++
  widths.flatMap (fun w =>
    [(s!"mat{w.toNat}x{w.toNat}f", .matrix w), (s!"mat{w.toNat}x{w.toNat}<f32>", .matrix w)]) ++
  wgslShortNames.filterMap fun name => (ValueType.ofName? name).map (name, ·)

/-- A text without blanks that spells a type. A comma may stand behind the length of an array. -/
inductive Spells : ValueType → List Char → Prop
  | word {t : ValueType} {cs : List Char} (h : (String.ofList cs, t) ∈ wgslWords) : Spells t cs
  | array {element : ValueType} {count : UInt32} {cs digits comma : List Char}
      (he : Spells element cs) (hn : wgslCount? digits = some count)
      (hc : comma = [] ∨ comma = [',']) :
      Spells (.array element count)
        ("array<".toList ++ ((cs ++ ',' :: (digits ++ comma)) ++ ['>']))

theorem wgslWords_read : ∀ p ∈ wgslWords, wgslPlainType? p.1.toList = some p.2 ∧
    Text.Solid p.1.toList ∧ Text.Whole p.1.toList := by
  decide +kernel

theorem wgslWords_chars : ∀ p ∈ wgslWords, p.1.toList.head?.any (· != 'a') = true ∧
    ';' ∉ p.1.toList ∧ ',' ∉ p.1.toList := by
  decide +kernel

theorem wgslScalar?_eq_some {text : String} {k : ScalarKind} (h : wgslScalar? text = some k) :
    text = Dialect.wgslScalar k := by
  have heq := List.find?_some h
  simp only [decide_eq_true_eq] at heq
  exact heq.symm

/-- A vector type is one of the words. -/
theorem mem_of_wgslVector? {w : Width} {cs : List Char} {t : ValueType}
    (h : wgslVector? w cs = some (some t)) : (String.ofList cs, t) ∈ wgslWords := by
  obtain ⟨inner, hinner, hr⟩ := Option.map_eq_some_iff.1 h
  obtain ⟨k, hk, rfl⟩ := Option.map_eq_some_iff.1 hr
  have hcs := between?_eq_some_iff.1 hinner
  have hkind : inner = (Dialect.wgslScalar k).toList := by
    rw [← wgslScalar?_eq_some hk, String.toList_ofList]
  rw [hcs, hkind]
  cases w <;> cases k <;> decide +kernel

/-- A matrix type is one of the words. -/
theorem mem_of_wgslMatrix? {w v : Width} {cs : List Char} {t : ValueType}
    (h : wgslMatrix? w v cs = some (some t)) : (String.ofList cs, t) ∈ wgslWords := by
  obtain ⟨rest, hrest, hr⟩ := Option.map_eq_some_iff.1 h
  split at hr
  · next hshape =>
    obtain ⟨rfl, hend⟩ := hshape
    cases hr
    rw [Text.dropFront?_eq_some_iff.1 hrest]
    rcases hend with rfl | rfl <;> cases w <;> decide +kernel
  · cases hr

/-- A type that is no array is one of the words. -/
theorem mem_wgslWords {cs : List Char} {t : ValueType} (h : wgslPlainType? cs = some t) :
    (String.ofList cs, t) ∈ wgslWords := by
  unfold wgslPlainType? at h
  split at h
  · next r hr =>
    subst h
    obtain ⟨w, -, hw⟩ := List.exists_of_findSome?_eq_some hr
    rcases Option.or_eq_some_iff.1 hw with hvector | ⟨-, hmatrix⟩
    · exact mem_of_wgslVector? hvector
    · obtain ⟨v, -, hv⟩ := List.exists_of_findSome?_eq_some hmatrix
      exact mem_of_wgslMatrix? hv
  · dsimp only at h
    split at h
    · next k hk =>
      cases h
      rw [wgslScalar?_eq_some hk]
      cases k <;> decide
    · split at h
      · next hshort =>
        have hmem : String.ofList cs ∈ wgslShortNames := by simpa using hshort
        refine List.mem_append_right _ (List.mem_filterMap.2 ⟨String.ofList cs, hmem, ?_⟩)
        rw [h]
        rfl
      · cases h

/-- The words of a length. -/
theorem wgslCount?_chars {cs : List Char} {n : UInt32} (h : wgslCount? cs = some n) :
    ∀ c ∈ cs, c.isDigit = true ∨ c ∈ ['+', 'u', 'i'] := by
  intro c hc
  by_contra hno
  rw [not_or] at hno
  obtain ⟨hdigit, hother⟩ := hno
  simp only [List.mem_cons, List.not_mem_nil, or_false, not_or] at hother
  obtain ⟨hplus, hu, hi⟩ := hother
  -- a mark of another kind is not taken off the end
  have hkept : c ∈ cs.reverse.dropWhile (fun c => c == 'u' || c == 'i') := by
    have hrev : c ∈ cs.reverse := List.mem_reverse.2 hc
    rw [← List.takeWhile_append_dropWhile (p := fun c => c == 'u' || c == 'i') (l := cs.reverse),
      List.mem_append] at hrev
    refine hrev.resolve_left fun htaken => ?_
    have := List.mem_takeWhile_imp htaken
    simp [hu, hi] at this
  have hnone := Text.readWord32?_of_mem (List.mem_reverse.2 hkept) (by simpa using hdigit) hplus
  rw [wgslCount?, hnone] at h
  cases h

theorem wgslCount?_plain {cs : List Char} {n : UInt32} (h : wgslCount? cs = some n) :
    cs ≠ [] ∧ Text.Solid cs ∧ Text.Whole cs := by
  have hchars := wgslCount?_chars h
  refine ⟨?_, fun c hc => ?_, .of_notMem fun c hc => ?_⟩
  · rintro rfl
    cases h
  · rcases hchars c hc with hdigit | hmark
    · exact Text.isBlank_of_isWordChar (by simp [Name.isWordChar, Char.isAlphanum, hdigit])
    · exact (by decide : Text.Solid ['+', 'u', 'i']) c hmark
  · refine ⟨?_, ?_, ?_, ?_, ?_⟩ <;> rintro rfl <;> exact absurd (hchars _ hc) (by decide)

/-- An array type closes what it opens, and its commas are inside. -/
theorem whole_array {cs digits comma : List Char} (hcs : Text.Whole cs) (hdigits : Text.Whole digits)
    (hc : comma = [] ∨ comma = [',']) :
    Text.Whole ("array<".toList ++ ((cs ++ ',' :: (digits ++ comma)) ++ ['>'])) := by
  have hopen : Text.nesting "array<".toList = 1 := by decide
  have hclose : Text.nesting ['>'] = -1 := by decide
  have hmark : Text.nesting [','] = 0 := by decide
  have hcomma : Text.nesting comma = 0 := by rcases hc with rfl | rfl <;> decide
  -- the commas between the parts are one bracket deep, those inside them deeper
  have hdeeper : ∀ {as : List Char}, Text.Whole as → Text.Nested 1 as := fun h front back e => by
    have := h.nested front back e
    omega
  have hsingle : Text.Nested 1 [','] := by decide
  have hnested : Text.Nested 1 (cs ++ ([','] ++ (digits ++ (comma ++ ['>'])))) := by
    refine (hdeeper hcs).append ?_
    rw [hcs.closed]
    refine hsingle.append ?_
    rw [hmark]
    refine (hdeeper hdigits).append ?_
    rw [hdigits.closed]
    rcases hc with rfl | rfl <;> decide
  have hsame : (cs ++ ',' :: (digits ++ comma)) ++ ['>'] =
      cs ++ ([','] ++ (digits ++ (comma ++ ['>']))) := by simp
  rw [hsame]
  refine ⟨(Text.Nested.of_notMem (by decide)).append (by rwa [hopen]), ?_⟩
  simp only [Text.nesting_append, hopen, hmark, hcomma, hclose, hcs.closed, hdigits.closed]
  rfl

/-- The element type and the length of an array come apart. -/
theorem splitTopLevel_element {cs digits comma : List Char} (hcs : Text.Whole cs)
    (hsolid : Text.Solid cs) {n : UInt32} (hn : wgslCount? digits = some n)
    (hc : comma = [] ∨ comma = [',']) :
    Text.splitTopLevel (cs ++ ',' :: (digits ++ comma)) = [cs, digits] := by
  obtain ⟨hne, hdigits, hwhole⟩ := wgslCount?_plain hn
  have htrim : Text.trim cs = cs := hsolid.trimmed
  have htrim' : Text.trim digits = digits := hdigits.trimmed
  have hfirst := Text.topLevelPieces_append_comma (digits ++ comma) hcs.nested
    (by rw [Int.zero_add, hcs.closed])
  rcases hc with rfl | rfl
  · have hrest := Text.topLevelPieces_eq_singleton hwhole.nested
    rw [List.append_nil] at hfirst ⊢
    simp only [Text.splitTopLevel, hfirst, hrest, List.map_cons, List.map_nil, htrim, htrim']
    rw [if_neg]
    simpa using hne
  · have hrest := Text.topLevelPieces_append_comma [] hwhole.nested
      (by rw [Int.zero_add, hwhole.closed])
    simp only [Text.splitTopLevel, hfirst, hrest, Text.topLevelPieces, List.map_cons, List.map_nil,
      htrim, htrim']
    rfl

section Spells

variable {t : ValueType} {cs : List Char}

theorem Spells.solid (h : Spells t cs) : Text.Solid cs := by
  induction h with
  | word h => simpa using (wgslWords_read _ h).2.1
  | array he hn hc ih =>
    have hdigits := (wgslCount?_plain hn).2.1
    intro c hm
    simp only [List.mem_append, List.mem_cons, List.not_mem_nil, or_false] at hm
    rcases hm with hm | ((hm | rfl | hm | hm) | rfl)
    · exact (by decide : Text.Solid "array<".toList) c hm
    · exact ih c hm
    · decide
    · exact hdigits c hm
    · rcases hc with rfl | rfl
      · cases hm
      · exact (by decide : Text.Solid [',']) c hm
    · decide

theorem Spells.whole (h : Spells t cs) : Text.Whole cs := by
  induction h with
  | word h => simpa using (wgslWords_read _ h).2.2
  | array he hn hc ih => exact whole_array ih (wgslCount?_plain hn).2.2 hc

/-- No word starts like an array. -/
theorem between?_word (h : (String.ofList cs, t) ∈ wgslWords) (rest : List Char) :
    between? "array<" '>' (cs ++ rest) = none := by
  have hhead := (wgslWords_chars _ h).1
  rw [String.toList_ofList] at hhead
  rw [Option.eq_none_iff_forall_ne_some]
  intro inner hinner
  cases cs with
  | nil => cases hhead
  | cons c cs =>
    rw [between?_eq_some_iff.1 hinner |> fun e => (List.cons.inj e).1] at hhead
    cases hhead

/-- What spells a type reads as the type, at any sufficient bound. -/
theorem Spells.reads_in (h : Spells t cs) {depth : Nat} (hdepth : cs.length < depth) :
    wgslTypeIn? depth cs = some t := by
  induction h generalizing depth with
  | @word t cs h =>
    obtain ⟨depth, rfl⟩ := Nat.exists_eq_succ_of_ne_zero (Nat.ne_zero_of_lt hdepth)
    have hread := (wgslWords_read _ h).1
    have hnone := between?_word h []
    rw [List.append_nil] at hnone
    rw [String.toList_ofList] at hread
    simp only [wgslTypeIn?, hnone, hread]
  | @array element count cs digits comma he hn hc ih =>
    obtain ⟨depth, rfl⟩ := Nat.exists_eq_succ_of_ne_zero (Nat.ne_zero_of_lt hdepth)
    have hinner : between? "array<" '>'
        ("array<".toList ++ ((cs ++ ',' :: (digits ++ comma)) ++ ['>'])) = some _ :=
      between?_eq_some_iff.2 rfl
    have hsplit := splitTopLevel_element he.whole he.solid hn hc
    have helement : wgslTypeIn? depth cs = some element := ih (by simp at hdepth; omega)
    simp only [wgslTypeIn?, hinner, hsplit, helement, hn]

/-- What spells a type without blanks reads as the type. -/
theorem Spells.reads (h : Spells t (compact cs)) : wgslType? cs = some t :=
  h.reads_in (Nat.lt_succ_of_le (List.length_filter_le _ _))

end Spells

/-! ### Tokens -/

/-- The tokens of a type in WGSL. -/
def wgslTokens : ValueType → List (List Char)
  | .array element count =>
    ["array".toList, ['<']] ++ wgslTokens element ++ [[','], Nat.toDigits 10 count.toNat, ['>']]
  | .scalar k => [(Dialect.wgslScalar k).toList]
  | .vector k w => [s!"vec{w.toNat}".toList, ['<'], (Dialect.wgslScalar k).toList, ['>']]
  | .matrix w => [s!"mat{w.toNat}x{w.toNat}".toList, ['<'], "f32".toList, ['>']]
  | t => [(Dialect.wgslSpelling t).toList]

/-- The text consists of the tokens, with blanks before, between and behind them. -/
inductive Spaced : List (List Char) → List Char → Prop
  | nil {blanks : List Char} (h : ∀ b ∈ blanks, Text.isBlank b = true) : Spaced [] blanks
  | cons {blanks token text : List Char} {tokens : List (List Char)}
      (h : ∀ b ∈ blanks, Text.isBlank b = true) (rest : Spaced tokens text) :
      Spaced (token :: tokens) (blanks ++ (token ++ text))

/-- A token without a blank in front. -/
theorem Spaced.next {token text : List Char} {tokens : List (List Char)} (rest : Spaced tokens text) :
    Spaced (token :: tokens) (token ++ text) := by
  have none : ∀ b ∈ ([] : List Char), Text.isBlank b = true := by simp
  exact .cons none rest

/-- A token with one blank in front. -/
theorem Spaced.blank {token text : List Char} {tokens : List (List Char)} {b : Char}
    (hb : Text.isBlank b = true) (rest : Spaced tokens text) :
    Spaced (token :: tokens) (b :: (token ++ text)) :=
  .cons (List.forall_mem_singleton.2 hb) rest

theorem compact_of_blanks {blanks : List Char} (h : ∀ b ∈ blanks, Text.isBlank b = true) :
    compact blanks = [] :=
  List.filter_eq_nil_iff.2 fun b hb => by simp [h b hb]

theorem compact_of_solid {cs : List Char} (h : Text.Solid cs) : compact cs = cs :=
  List.filter_eq_self.2 fun c hc => by simp [h c hc]

/-- Without its blanks, a text is its tokens in a row. -/
theorem compact_of_spaced {tokens : List (List Char)} {text : List Char} (h : Spaced tokens text)
    (hsolid : ∀ token ∈ tokens, Text.Solid token) : compact text = tokens.flatten := by
  induction h with
  | nil hblanks => exact compact_of_blanks hblanks
  | @cons blanks token text tokens hblanks _ ih =>
    have htoken := compact_of_solid (hsolid token (by simp))
    have hrest := ih fun t ht => hsolid t (by simp [ht])
    have hnone := compact_of_blanks hblanks
    unfold compact at *
    rw [List.filter_append, List.filter_append, hnone, htoken, hrest]
    rfl

theorem Spaced.append {front back : List (List Char)} {as bs : List Char} (hf : Spaced front as)
    (hb : Spaced back bs) (hne : back ≠ []) : Spaced (front ++ back) (as ++ bs) := by
  induction hf with
  | nil hblanks =>
    cases hb with
    | nil => exact absurd rfl hne
    | @cons blanks token text tokens h rest =>
      rw [List.nil_append, ← List.append_assoc]
      refine .cons (fun b hb => ?_) rest
      exact (List.mem_append.1 hb).elim (hblanks b) (h b)
  | cons h _ ih =>
    rw [List.cons_append, List.append_assoc, List.append_assoc]
    exact .cons h ih

/-! ### Tokens of types -/

/-- A word of WGSL holds no blank and no mark of nesting. -/
theorem solid_wgslTokens {t : ValueType} (h : t.IsSized) :
    ∀ token ∈ wgslTokens t, Text.Solid token := by
  induction t with
  | array element count ih =>
    intro token ht
    simp only [wgslTokens, List.mem_append, List.mem_cons, List.not_mem_nil, or_false] at ht
    rcases ht with ((rfl | rfl) | ht) | rfl | rfl | rfl
    · decide
    · decide
    · exact ih h.element token ht
    · decide
    · exact .of_wordChars (ValueType.digits_wordChars count.toNat)
    · decide
  | scalar k => cases k <;> decide
  | vector k w => cases k <;> cases w <;> decide
  | matrix w => cases w <;> decide
  | void | texture | struct name => exact absurd h.atom (by simp [ValueType.atom, ValueType.scalarKind])

/-- The tokens of an array type in a row. -/
theorem flatten_array (element : ValueType) (count : UInt32) :
    (wgslTokens (.array element count)).flatten = "array<".toList ++
      (((wgslTokens element).flatten ++ ',' :: Nat.toDigits 10 count.toNat) ++ ['>']) := by
  simp [wgslTokens]

theorem wgslCount?_digits (n : UInt32) : wgslCount? (Nat.toDigits 10 n.toNat) = some n := by
  have hself : (Nat.toDigits 10 n.toNat).reverse.dropWhile (fun c => c == 'u' || c == 'i') =
      (Nat.toDigits 10 n.toNat).reverse := by
    refine List.dropWhile_eq_self_iff.2 fun hpos => ?_
    have hdigit := Text.isDigit_of_mem_toDigits (List.mem_reverse.1 (List.getElem_mem hpos))
    intro hmark
    rcases Bool.or_eq_true_iff.1 hmark with e | e <;> rw [eq_of_beq e] at hdigit <;>
      exact absurd hdigit (by decide)
  rw [wgslCount?, hself, List.reverse_reverse, Text.readWord32?_toDigits]

/-- The tokens of a type in a row spell the type. -/
theorem spells_tokens {t : ValueType} (h : t.IsSized) : Spells t (wgslTokens t).flatten := by
  induction t with
  | array element count ih =>
    have harray := Spells.array (ih h.element) (wgslCount?_digits count) (.inl rfl)
    rw [List.append_nil] at harray
    rwa [flatten_array]
  | scalar k => exact .word (by cases k <;> decide +kernel)
  | vector k w => exact .word (by cases k <;> cases w <;> decide +kernel)
  | matrix w => exact .word (by cases w <;> decide +kernel)
  | void | texture | struct name =>
    exact absurd h.atom (by simp [ValueType.atom, ValueType.scalarKind])

/-- Tokens in a row are spaced by no blanks at all. -/
theorem spaced_flatten (tokens : List (List Char)) : Spaced tokens tokens.flatten := by
  induction tokens with
  | nil => exact .nil (by simp)
  | cons token tokens ih => exact ih.next

/-- What the backend writes for a type are its tokens, with a blank in front of each length. -/
theorem spaced_spelling {t : ValueType} (h : t.IsSized) :
    Spaced (wgslTokens t) (Dialect.wgslSpelling t).toList := by
  induction t with
  | array element count ih =>
    have htext : (Dialect.wgslSpelling (.array element count)).toList =
        ("array<".toList ++ (Dialect.wgslSpelling element).toList) ++
          (',' :: ' ' :: (Nat.toDigits 10 count.toNat ++ ['>'])) := by
      simp [Dialect.wgslSpelling, h.lengths count (by simp [ValueType.lengths]), Nat.toList_repr,
        show ∀ s : String, toString s = s from fun _ => rfl]
    have hfront : Spaced (["array".toList, ['<']] ++ wgslTokens element)
        ("array<".toList ++ (Dialect.wgslSpelling element).toList) := by
      have hopen : Spaced (['<'] :: wgslTokens element)
          ('<' :: (Dialect.wgslSpelling element).toList) := (ih h.element).next
      exact hopen.next
    have hback : Spaced [[','], Nat.toDigits 10 count.toNat, ['>']]
        (',' :: ' ' :: (Nat.toDigits 10 count.toNat ++ ['>'])) :=
      .next (.blank Text.isBlank_space (spaced_flatten [['>']]))
    rw [htext]
    exact hfront.append hback (by simp)
  | scalar k => cases k <;> exact spaced_flatten _
  | vector k w => cases k <;> cases w <;> exact spaced_flatten _
  | matrix w => cases w <;> exact spaced_flatten _
  | void | texture | struct name =>
    exact absurd h.atom (by simp [ValueType.atom, ValueType.scalarKind])

/-- A type whose lengths are known can be written. -/
theorem wgslTypeName_of_isSized {t : ValueType} (h : t.IsSized) :
    Dialect.typeName .wgsl t = .ok (Dialect.wgslSpelling t) := by
  refine Dialect.typeName_eq_ok_iff.2 ⟨?_, rfl⟩
  induction t with
  | array element count ih => exact ih h.element
  | void => exact absurd h.atom (by decide)
  | _ => rfl

/-- What the backend writes for a type reads as the type, with any blanks between its tokens. -/
theorem wgsl_types_read_back {t : ValueType} (h : t.IsSized) :
    ∃ text, Dialect.typeName .wgsl t = .ok text ∧ Spaced (wgslTokens t) text.toList ∧
      wgslType? text.toList = some t ∧
      ∀ spaced, Spaced (wgslTokens t) spaced → wgslType? spaced = some t := by
  have reads : ∀ spaced, Spaced (wgslTokens t) spaced → wgslType? spaced = some t := by
    intro spaced hspaced
    refine Spells.reads ?_
    rw [compact_of_spaced hspaced (solid_wgslTokens h)]
    exact spells_tokens h
  have hspelling := spaced_spelling h
  exact ⟨_, wgslTypeName_of_isSized h, hspelling, reads _ hspelling, reads⟩

/-- Three pairs of vectors, with blanks and newlines between the tokens. -/
theorem pairs_read_back :
    (ValueType.array (.array .vec2 2) 3).IsSized ∧
      wgslType? "array <array\n<vec2< f32>\t, 2 >,3>".toList =
        some (.array (.array .vec2 2) 3) := by
  have sized : (ValueType.array (.array .vec2 2) 3).IsSized :=
    .array (.array ⟨rfl, nofun⟩ (by decide)) (by decide)
  obtain ⟨-, -, -, -, reads⟩ := wgsl_types_read_back sized
  refine ⟨sized, reads _ ?_⟩
  have hblank : Text.isBlank ' ' = true ∧ Text.isBlank '\n' = true ∧ Text.isBlank '\t' = true := by
    decide
  obtain ⟨space, newline, tab⟩ := hblank
  have hend : Spaced [[','], ['3'], ['>']] ",3>".toList := spaced_flatten _
  have hlength : Spaced [[','], ['2'], ['>'], [','], ['3'], ['>']] "\t, 2 >,3>".toList :=
    .blank tab (.blank space (.blank space hend))
  exact .next (.blank space (.next (.blank newline (.next (.next (.blank space (.next hlength)))))))

end ShaderGraph.Native
