import ShaderGraph.Proofs.WgslTypes

/-!
# The body of a function and its signature

What the reader of a dialect takes for the body of a function.

* `Parts` are the pieces of a source between the marks the readers look for: the first parenthesis,
  the one that closes it, the next brace and the one that closes that.
* `readGlsl_iff` and `readWgsl_iff`: a source is read when it has such parts and the pieces in front
  of the body can be read. In GLSL nothing is asked of the piece between the parameters and the
  body, in WGSL it is the result type.
* `Surplus` texts are arrays of WGSL with items behind their length, which the reader skips. A text
  is read as a type when it spells the type or has such items (`spells_iff`).
* `body_of_signature` says what stands between the signature and the body, and which functions
  without a body of their own are read.
-/

namespace ShaderGraph.Native

/-! ### Parts of a source -/

/-- The pieces of a source around its first list of parameters and the first block behind it. -/
structure Parts where
  header : List Glyph
  inside : List Glyph
  between : List Glyph
  block : List Glyph
  rest : List Glyph

namespace Parts

/-- The pieces with the marks between them. -/
def glyphs (p : Parts) : List Glyph :=
  p.header ++ ⟨'(', false⟩ :: (p.inside ++ ⟨')', false⟩ ::
    (p.between ++ ⟨'\x7b', false⟩ :: (p.block ++ ⟨'\x7d', false⟩ :: p.rest)))

/-- The block with its braces. -/
def text (p : Parts) : String := String.ofList ('\x7b' :: written p.block ++ ['\x7d'])

/-- What stands between the parameters and the block, with comments and the blanks around it left
out. -/
def gap (p : Parts) : List Char := Text.trim (blanked p.between)

/-- The parts are those of the source: no mark stands in front of the first one of its kind, and
the brackets inside are balanced. -/
structure Cuts (p : Parts) (source : List Glyph) : Prop where
  whole : source = p.glyphs
  header : ∀ g ∈ p.header, g.shown ≠ '('
  inside : Text.Balanced '(' ')' (p.inside.map Glyph.shown)
  between : ∀ g ∈ p.between, g.shown ≠ '\x7b'
  block : Text.Balanced '\x7b' '\x7d' (p.block.map Glyph.shown)

/-- The signature of a GLSL function, which depends on what stands up to its parameters only. -/
structure SignsGlsl (p : Parts) (f : Declaration) : Prop where
  header : ∃ preamble result, glslHeader p.header = .ok (preamble, result, f.name) ∧
    glslType result = .ok f.result ∧ f.form = .glsl preamble
  inputs : glslParameters (blanked p.inside) = .ok f.inputs

/-- The signature of a WGSL function. -/
structure SignsWgsl (p : Parts) (f : Declaration) : Prop where
  name : f.name = String.ofList (Text.trim (blanked p.header))
  named : Text.trim (blanked p.header) ≠ [] ∧ Text.Solid (Text.trim (blanked p.header))
  inputs : ∃ parameters resultText,
    (Text.splitTopLevel (blanked p.inside)).mapM wgslParameter = .ok parameters ∧
      f.inputs = parameters.map Prod.fst ∧ f.form = .wgsl (parameters.map Prod.snd) resultText ∧
      wgslResult p.gap = .ok (f.result, resultText)

end Parts

/-- A character that shows a mark is the mark itself. -/
theorem Glyph.eq_of_shown {g : Glyph} {c : Char} (h : g.shown = c) (hc : Text.isBlank c = false) :
    g = ⟨c, false⟩ := by
  have hhidden : g.hidden = false := Glyph.hidden_of_isBlank (by rwa [Glyph.isBlank, h])
  rw [Glyph.shown_of_visible hhidden] at h
  obtain ⟨char, hidden⟩ := g
  exact congrArg₂ Glyph.mk h hhidden

section Cutting

variable {gs before after : List Glyph}

theorem cutAt_shown_iff {c : Char} (hc : Text.isBlank c = false) :
    Text.cutAt (fun g : Glyph => g.shown == c) gs = some (before, after) ↔
      (∀ g ∈ before, g.shown ≠ c) ∧ gs = before ++ ⟨c, false⟩ :: after := by
  simp only [Text.cutAt_eq_some_iff, beq_eq_false_iff_ne, beq_iff_eq]
  refine and_congr_right fun _ => ⟨?_, fun e => ⟨⟨c, false⟩, rfl, e⟩⟩
  rintro ⟨g, hg, rfl⟩
  rw [Glyph.eq_of_shown hg hc]

theorem takeBracket_shown_iff {opening closing : Char} (hne : opening ≠ closing)
    (hc : Text.isBlank closing = false) :
    Text.takeBracket Glyph.shown opening closing 1 gs = some (before, after) ↔
      Text.Balanced opening closing (before.map Glyph.shown) ∧
        gs = before ++ ⟨closing, false⟩ :: after := by
  rw [Text.takeBracket_eq_some_iff hne]
  refine and_congr_right fun _ => ⟨?_, fun e => ⟨⟨closing, false⟩, rfl, e⟩⟩
  rintro ⟨g, hg, rfl⟩
  rw [Glyph.eq_of_shown hg hc]

theorem beforeParameters?_iff : beforeParameters? gs = some (before, after) ↔
    (∀ g ∈ before, g.shown ≠ '(') ∧ gs = before ++ ⟨'(', false⟩ :: after :=
  cutAt_shown_iff (by decide)

theorem parameterList_iff {d : Dialect} : parameterList d gs = .ok (before, after) ↔
    Text.Balanced '(' ')' (before.map Glyph.shown) ∧ gs = before ++ ⟨')', false⟩ :: after := by
  rw [← takeBracket_shown_iff (by decide) (by decide), parameterList]
  split <;> simp_all

theorem body_iff {text : String} : body gs = .ok (before, text) ↔
    (∀ g ∈ before, g.shown ≠ '\x7b') ∧ ∃ block rest,
      Text.Balanced '\x7b' '\x7d' (block.map Glyph.shown) ∧
        gs = before ++ ⟨'\x7b', false⟩ :: (block ++ ⟨'\x7d', false⟩ :: rest) ∧
        text = String.ofList ('\x7b' :: written block ++ ['\x7d']) := by
  constructor
  · intro h
    unfold body at h
    split at h
    · cases h
    · next between after hcut =>
      obtain ⟨hbetween, rfl⟩ := (cutAt_shown_iff (by decide)).1 hcut
      split at h
      · cases h
      · next block rest htake =>
        obtain ⟨hblock, rfl⟩ := (takeBracket_shown_iff (by decide) (by decide)).1 htake
        obtain ⟨rfl, rfl⟩ := Prod.mk.inj (Except.ok.inj h)
        exact ⟨hbetween, block, rest, hblock, rfl, rfl⟩
  · rintro ⟨hbetween, block, rest, hblock, rfl, rfl⟩
    have hcut : Text.cutAt (fun g : Glyph => g.shown == '\x7b')
        (before ++ ⟨'\x7b', false⟩ :: (block ++ ⟨'\x7d', false⟩ :: rest)) = some (before, _) :=
      (cutAt_shown_iff (by decide)).2 ⟨hbetween, rfl⟩
    have htake : Text.takeBracket Glyph.shown '\x7b' '\x7d' 1 (block ++ ⟨'\x7d', false⟩ :: rest) =
        some (block, rest) :=
      (takeBracket_shown_iff (by decide) (by decide)).2 ⟨hblock, rfl⟩
    simp only [body, hcut, htake]

/-- The parts of a source are what the readers cut out of it. -/
theorem Parts.Cuts.cut {p : Parts} (h : p.Cuts gs) (d : Dialect) :
    ∃ list rest, beforeParameters? gs = some (p.header, list) ∧
      parameterList d list = .ok (p.inside, rest) ∧ body rest = .ok (p.between, p.text) :=
  ⟨_, _, beforeParameters?_iff.2 ⟨h.header, h.whole⟩, parameterList_iff.2 ⟨h.inside, rfl⟩,
    body_iff.2 ⟨h.between, p.block, p.rest, h.block, rfl, rfl⟩⟩

/-- What the readers cut out of a source are its parts. -/
theorem Parts.cuts_of_cut {d : Dialect} {header inside between list rest : List Glyph}
    {text : String} (hheader : beforeParameters? gs = some (header, list))
    (hlist : parameterList d list = .ok (inside, rest)) (hbody : body rest = .ok (between, text)) :
    ∃ p : Parts, p.Cuts gs ∧ p.header = header ∧ p.inside = inside ∧ p.between = between ∧
      p.text = text := by
  obtain ⟨hno, rfl⟩ := beforeParameters?_iff.1 hheader
  obtain ⟨hinside, rfl⟩ := parameterList_iff.1 hlist
  obtain ⟨hbetween, block, rest, hblock, rfl, rfl⟩ := body_iff.1 hbody
  exact ⟨⟨header, inside, between, block, rest⟩, ⟨rfl, hno, hinside, hbetween, hblock⟩,
    rfl, rfl, rfl, rfl⟩

end Cutting

/-- In GLSL a function is read from its parts, and what stands between them is passed over. -/
theorem readGlsl_iff {source : String} {f : Declaration} : readGlsl source = .ok f ↔
    ∃ p : Parts, p.Cuts (glyphs source.toList) ∧ p.SignsGlsl f ∧ f.body = p.text := by
  constructor
  · intro h
    unfold readGlsl at h
    split at h
    · cases h
    · next header rest hcut =>
      obtain ⟨⟨preamble, result, name⟩, hheader, h⟩ := bind_ok h
      obtain ⟨t, htype, h⟩ := bind_ok h
      obtain ⟨⟨inside, rest'⟩, hlist, h⟩ := bind_ok h
      obtain ⟨inputs, hinputs, h⟩ := bind_ok h
      obtain ⟨⟨between, text⟩, hbody, h⟩ := bind_ok h
      cases h
      obtain ⟨p, hcuts, rfl, rfl, rfl, rfl⟩ := Parts.cuts_of_cut hcut hlist hbody
      exact ⟨p, hcuts, ⟨⟨preamble, result, hheader, htype, rfl⟩, hinputs⟩, rfl⟩
  · rintro ⟨p, hcuts, ⟨⟨preamble, result, hheader, htype, hform⟩, hinputs⟩, htext⟩
    obtain ⟨list, rest, hfirst, hlist, hbody⟩ := hcuts.cut .glsl
    obtain ⟨name, inputs, type, form, text⟩ := f
    cases hform
    cases htext
    simp only [readGlsl, hfirst, hheader, htype, hlist, hinputs, hbody, bind, Except.bind]
    rfl

/-- In WGSL a function is read from its parts, and what stands between them is read as its result. -/
theorem readWgsl_iff {source : String} {f : Declaration} : readWgsl source = .ok f ↔
    ∃ gs, afterKeyword? false (glyphs source.toList) = some gs ∧
      ∃ p : Parts, p.Cuts gs ∧ p.SignsWgsl f ∧ f.body = p.text := by
  constructor
  · intro h
    unfold readWgsl at h
    split at h
    · cases h
    · next gs hkeyword =>
      split at h
      · cases h
      · next header rest hcut =>
        dsimp only at h
        split at h
        · cases h
        · next hname =>
          obtain ⟨⟨inside, rest'⟩, hlist, h⟩ := bind_ok h
          obtain ⟨parameters, hinputs, h⟩ := bind_ok h
          obtain ⟨⟨between, text⟩, hbody, h⟩ := bind_ok h
          obtain ⟨⟨t, resultText⟩, hresult, h⟩ := bind_ok h
          cases h
          obtain ⟨p, hcuts, rfl, rfl, rfl, rfl⟩ := Parts.cuts_of_cut hcut hlist hbody
          rw [Bool.not_eq_true, Bool.or_eq_false_iff, List.isEmpty_eq_false_iff,
            List.any_eq_false] at hname
          refine ⟨gs, hkeyword, p, hcuts, ⟨rfl, ⟨hname.1, fun c hc => ?_⟩,
            parameters, resultText, hinputs, rfl, rfl, hresult⟩, rfl⟩
          simpa using hname.2 c hc
  · rintro ⟨gs, hkeyword, p, hcuts, ⟨hname, ⟨hne, hsolid⟩, parameters, resultText, hinputs, hps,
      hform, hresult⟩, htext⟩
    obtain ⟨list, rest, hfirst, hlist, hbody⟩ := hcuts.cut .wgsl
    have hvalid : ((Text.trim (blanked p.header)).isEmpty ||
        (Text.trim (blanked p.header)).any Text.isBlank) = false := by
      rw [Bool.or_eq_false_iff, List.isEmpty_eq_false_iff, List.any_eq_false]
      exact ⟨hne, fun c hc => by simp [hsolid c hc]⟩
    obtain ⟨name, inputs, type, form, text⟩ := f
    cases hname
    cases hps
    cases hform
    cases htext
    unfold Parts.gap at hresult
    simp only [readWgsl, hkeyword, hfirst, hvalid, hlist, hinputs, hbody, hresult, bind,
      Except.bind, Bool.false_eq_true, if_false]
    rfl

/-! ### Types with items too many -/

/-- An array type with items behind its length, or one whose elements have such a type. -/
inductive Surplus : List Char → Prop
  | here {cs inner element count extra : List Char} {more : List (List Char)}
      (hcs : between? "array<" '>' cs = some inner)
      (h : Text.splitTopLevel inner = element :: count :: extra :: more) : Surplus cs
  | inside {cs inner element count : List Char} (hcs : between? "array<" '>' cs = some inner)
      (h : Text.splitTopLevel inner = [element, count]) (hs : Surplus element) : Surplus cs

theorem intercalate_topLevelPieces (depth : Int) (cs : List Char) :
    [','].intercalate (Text.topLevelPieces depth cs) = cs := by
  induction cs generalizing depth with
  | nil => rfl
  | cons c cs ih =>
    have hne : ∀ depth, Text.topLevelPieces depth cs ≠ [] := by
      intro depth e
      have := ih depth
      rw [e] at this
      subst this
      cases e
    rw [Text.topLevelPieces]
    split
    · next hc =>
      obtain ⟨piece, pieces, hpieces⟩ := List.exists_cons_of_ne_nil (hne depth)
      rw [hc.1, hpieces, List.intercalate_cons_cons, ← hpieces, ih]
      rfl
    · dsimp only
      split
      · next e => exact absurd e (hne _)
      · next piece pieces hpieces =>
        have hrest := ih (if c = '<' ∨ c = '(' then depth + 1
          else if c = '>' ∨ c = ')' then depth - 1 else depth)
        rw [hpieces] at hrest
        cases pieces with
        | nil => simpa using hrest
        | cons next pieces =>
          rw [List.intercalate_cons_cons] at hrest ⊢
          rw [← hrest]
          rfl

/-- The characters of the items are those of the list. -/
theorem mem_intercalate {sep item : List Char} {items : List (List Char)} {c : Char}
    (hitem : item ∈ items) (hc : c ∈ item) : c ∈ sep.intercalate items := by
  induction items with
  | nil => cases hitem
  | cons first items ih =>
    cases items with
    | nil => simpa [List.mem_singleton.1 hitem] using hc
    | cons next items =>
      rw [List.intercalate_cons_cons, List.append_assoc, List.mem_append, List.mem_append]
      rcases List.mem_cons.1 hitem with rfl | hitem
      · exact .inl hc
      · exact .inr (.inr (ih hitem))

/-- In a text without blanks, two items are separated by a comma, and one may follow them. -/
theorem splitTopLevel_pair {cs first second : List Char} (hsolid : Text.Solid cs)
    (h : Text.splitTopLevel cs = [first, second]) :
    ∃ comma, (comma = [] ∨ comma = [',']) ∧ cs = first ++ ',' :: (second ++ comma) := by
  have hjoin := intercalate_topLevelPieces 0 cs
  have htrim : (Text.topLevelPieces 0 cs).map Text.trim = Text.topLevelPieces 0 cs := by
    refine (List.map_congr_left fun piece hpiece => ?_).trans (List.map_id _)
    have hpiece : Text.Solid piece := fun c hc => hsolid c (hjoin ▸ mem_intercalate hpiece hc)
    exact hpiece.trimmed
  unfold Text.splitTopLevel at h
  dsimp only at h
  rw [htrim] at h
  split at h
  · next hlast =>
    have hpieces := List.dropLast_append_getLast? [] hlast
    rw [h] at hpieces
    refine ⟨[','], .inr rfl, ?_⟩
    rw [← hjoin, ← hpieces]
    simp [List.intercalate]
  · refine ⟨[], .inl rfl, ?_⟩
    rw [← hjoin, h]
    simp [List.intercalate]

section Surplus

variable {t : ValueType} {cs : List Char}

/-- What spells a type has no items too many. -/
theorem Spells.not_surplus (h : Spells t cs) : ¬Surplus cs := by
  induction h with
  | @word t cs h =>
    have hnone := between?_word h []
    rw [List.append_nil] at hnone
    intro hs
    cases hs with
    | here hcs _ | inside hcs _ _ => simp [hnone] at hcs
  | @array element count cs digits comma he hn hc ih =>
    have hinner : between? "array<" '>'
        ("array<".toList ++ ((cs ++ ',' :: (digits ++ comma)) ++ ['>'])) = some _ :=
      between?_eq_some_iff.2 rfl
    have hsplit := splitTopLevel_element he.whole he.solid hn hc
    intro hs
    cases hs with
    | here hcs h =>
      cases hinner.symm.trans hcs
      simp [hsplit] at h
    | inside hcs h hs =>
      cases hinner.symm.trans hcs
      obtain ⟨rfl, -⟩ := List.cons.inj (hsplit.symm.trans h)
      exact ih hs

/-- What reads as a type without items too many spells it. -/
theorem spells_of_reads {depth : Nat} (hsolid : Text.Solid cs)
    (h : wgslTypeIn? depth cs = some t) (hs : ¬Surplus cs) : Spells t cs := by
  induction depth generalizing t cs with
  | zero => cases h
  | succ depth ih =>
    rw [wgslTypeIn?] at h
    split at h
    · exact .word (mem_wgslWords h)
    · next inner hinner =>
      split at h
      · next element count more hsplit =>
        split at h
        · next e n he hn =>
          cases h
          cases more with
          | cons extra more => exact absurd (.here hinner hsplit) hs
          | nil =>
            have hcs := between?_eq_some_iff.1 hinner
            have hinside : Text.Solid inner := fun c hc => hsolid c (by simp [hcs, hc])
            obtain ⟨comma, hcomma, hpair⟩ := splitTopLevel_pair hinside hsplit
            have helement : Text.Solid element := fun c hc => hinside c (by simp [hpair, hc])
            rw [hcs, hpair]
            exact .array (ih helement he fun hs' => hs (.inside hinner hsplit hs')) hn hcomma
        · cases h
      · cases h

/-- A text that reads as a type spells it, or has items too many. -/
theorem spells_iff (h : wgslType? cs = some t) : Spells t (compact cs) ↔ ¬Surplus (compact cs) :=
  ⟨Spells.not_surplus, spells_of_reads (solid_compact cs) h⟩

end Surplus

/-! ### What stands in front of a body in WGSL -/

/-- Attributes with the blanks behind them: words, each with arguments or without. -/
inductive Attributes : List Char → Prop
  | nil : Attributes []
  | plain {word blanks more : List Char} (hword : ∀ c ∈ word, Name.isWordChar c = true)
      (hblanks : ∀ b ∈ blanks, Text.isBlank b = true) (hmore : Attributes more) :
      Attributes ('@' :: (word ++ (blanks ++ more)))
  | applied {word blanks arguments blanks' more : List Char}
      (hword : ∀ c ∈ word, Name.isWordChar c = true)
      (hblanks : ∀ b ∈ blanks, Text.isBlank b = true)
      (harguments : Text.Balanced '(' ')' arguments)
      (hblanks' : ∀ b ∈ blanks', Text.isBlank b = true) (hmore : Attributes more) :
      Attributes ('@' :: (word ++ (blanks ++ '(' :: (arguments ++ ')' :: (blanks' ++ more)))))

/-- A result type between the parameters and the body, or none. -/
inductive Clause : ValueType → List Char → Prop
  | absent : Clause .void []
  | arrow {t : ValueType} {clause attributes type : List Char} (ha : Attributes attributes)
      (hclause : Text.trim clause = attributes ++ type) (htype : dropAttributes clause = type)
      (ht : Spells t (compact type)) : Clause t ('-' :: '>' :: clause)

theorem trimLeft_eq (cs : List Char) :
    ∃ blanks, (∀ b ∈ blanks, Text.isBlank b = true) ∧ cs = blanks ++ Text.trimLeft cs :=
  ⟨cs.takeWhile Text.isBlank, fun _ hb => List.mem_takeWhile_imp hb,
    (List.takeWhile_append_dropWhile ..).symm⟩

/-- What is passed over behind an at sign is an attribute. -/
theorem afterAttribute_eq {cs rest : List Char} (h : afterAttribute cs = rest) (hne : rest ≠ []) :
    ∃ front, cs = front ++ rest ∧
      ∀ more, Attributes more → Attributes ('@' :: (front ++ more)) := by
  have hword : ∀ c ∈ cs.takeWhile Name.isWordChar, Name.isWordChar c = true :=
    fun _ hc => List.mem_takeWhile_imp hc
  have hcs := List.takeWhile_append_dropWhile (p := Name.isWordChar) (l := cs)
  obtain ⟨blanks, hblanks, hbehind⟩ := trimLeft_eq (cs.dropWhile Name.isWordChar)
  unfold afterAttribute at h
  dsimp only at h
  split at h
  · next arguments harguments =>
    rw [harguments] at hbehind
    split at h
    · next inside rest' htake =>
      obtain ⟨hinside, last, hlast, rfl⟩ :=
        (Text.takeBracket_eq_some_iff (by decide)).1 htake
      obtain rfl : last = ')' := hlast
      rw [List.map_id] at hinside
      obtain ⟨blanks', hblanks', hrest⟩ := trimLeft_eq rest'
      rw [h] at hrest
      refine ⟨cs.takeWhile Name.isWordChar ++ (blanks ++ '(' :: (inside ++ ')' :: blanks')), ?_,
        fun more hmore => ?_⟩
      · rw [hrest] at hbehind
        simpa [hbehind] using hcs.symm
      · simpa using Attributes.applied hword hblanks hinside hblanks' hmore
    · exact absurd h.symm hne
  · rw [h] at hbehind
    refine ⟨cs.takeWhile Name.isWordChar ++ blanks, ?_, fun more hmore => ?_⟩
    · rw [List.append_assoc, ← hbehind, hcs]
    · simpa using Attributes.plain hword hblanks hmore

theorem dropAttributesIn_eq {fuel : Nat} {cs rest : List Char} (h : dropAttributesIn fuel cs = rest)
    (hne : rest ≠ []) : ∃ front, Attributes front ∧ cs = front ++ rest := by
  induction fuel generalizing cs with
  | zero => exact ⟨[], .nil, by simpa [dropAttributesIn] using h⟩
  | succ fuel ih =>
    unfold dropAttributesIn at h
    split at h
    · next cs' _ hfuel =>
      cases hfuel
      obtain ⟨more, hmore, hafter⟩ := ih h
      have hne' : more ++ rest ≠ [] := by simp [hne]
      obtain ⟨front, rfl, hfront⟩ := afterAttribute_eq hafter hne'
      exact ⟨'@' :: (front ++ more), hfront more hmore, by simp⟩
    · exact ⟨[], .nil, h⟩

theorem compact_trim (cs : List Char) : compact (Text.trim cs) = compact cs := by
  obtain ⟨front, hfront, hcs⟩ := trimLeft_eq cs
  obtain ⟨back, hback, hblanks⟩ := Text.trimRight_append_blanks (Text.trimLeft cs)
  have hnone := compact_of_blanks hfront
  have hnone' := compact_of_blanks hblanks
  conv_rhs => rw [hcs, hback]
  unfold compact at *
  rw [List.filter_append, List.filter_append, hnone, hnone', List.append_nil]
  rfl

/-- What is read between the parameters and the body is a result type, up to items too many. -/
theorem clause_iff {gap : List Char} {t : ValueType} {text : Option String}
    (h : wgslResult gap = .ok (t, text)) :
    Clause t gap ↔ ∀ type ∈ text, ¬Surplus (compact type.toList) := by
  unfold wgslResult at h
  split at h
  · next clause hfront =>
    have hgap : gap = '-' :: '>' :: clause := Text.dropFront?_eq_some_iff.1 hfront
    clear hfront
    dsimp only at h
    split at h
    · next u hu =>
      obtain ⟨rfl, rfl⟩ := Prod.mk.inj (Except.ok.inj h)
      have hcompact := compact_trim (dropAttributes clause)
      have hiff := spells_iff hu
      simp only [Option.mem_some_iff, forall_eq', String.toList_ofList, ← hiff]
      rw [hcompact]
      constructor
      · intro hclause
        cases hclause with
        | absent => cases hgap
        | arrow _ _ htype ht =>
          cases hgap
          rwa [htype]
      · intro hspells
        have hne : dropAttributes clause ≠ [] := by
          intro e
          rw [e, show wgslType? (Text.trim []) = none by decide] at hu
          cases hu
        obtain ⟨attributes, ha, hcl⟩ := dropAttributesIn_eq rfl hne
        rw [hgap]
        exact .arrow ha hcl rfl hspells
    · cases h
  · split at h
    · next hempty =>
      obtain ⟨rfl, rfl⟩ := Prod.mk.inj (Except.ok.inj h)
      rw [List.isEmpty_iff.1 hempty]
      exact iff_of_true .absent (by simp)
    · cases h

/-! ### Functions without a body -/

/-- An item that is followed by something other than a comma goes on with it. -/
theorem topLevelPieces_append_other {cs : List Char} {depth : Int} {c : Char} (rest : List Char)
    (h : Text.Nested depth cs) (hc : c ≠ ',') :
    ∃ piece pieces, Text.topLevelPieces depth (cs ++ c :: rest) = (cs ++ c :: piece) :: pieces := by
  induction cs generalizing depth with
  | nil =>
    have hne : Text.topLevelPieces (depth + Text.nesting [c]) rest ≠ [] := by
      intro e
      have hjoin := intercalate_topLevelPieces (depth + Text.nesting [c]) rest
      rw [e] at hjoin
      subst hjoin
      cases e
    obtain ⟨piece, pieces, hrest⟩ := List.exists_cons_of_ne_nil hne
    exact ⟨piece, pieces, Text.topLevelPieces_cons (by simp [hc]) hrest⟩
  | cons d ds ih =>
    obtain ⟨piece, pieces, hrest⟩ := ih h.tail
    exact ⟨piece, pieces, Text.topLevelPieces_cons h.not_cut hrest⟩

/-- The first two of several items, the second of which is not blank. -/
theorem splitTopLevel_cons {cs first second : List Char} {pieces : List (List Char)}
    (h : Text.topLevelPieces 0 cs = first :: second :: pieces) (hne : Text.trim second ≠ []) :
    ∃ more, Text.splitTopLevel cs = Text.trim first :: Text.trim second :: more := by
  unfold Text.splitTopLevel
  simp only [h, List.map_cons]
  split
  · next hlast =>
    cases pieces with
    | nil => simp [hne] at hlast
    | cons third pieces => exact ⟨_, rfl⟩
  · exact ⟨_, rfl⟩

/-- A text that does not end with a closing bracket is no array type. -/
theorem between?_of_getLast? {word : String} {closing : Char} {cs : List Char}
    (h : cs.getLast? ≠ some closing) : between? word closing cs = none := by
  rw [Option.eq_none_iff_forall_ne_some]
  intro inner hinner
  rw [between?_eq_some_iff.1 hinner, ← List.append_assoc, List.getLast?_concat] at h
  exact h rfl

/-- An array type that goes on with other text up to a closing bracket: the element type and the
length are found in front of it when a comma separates it from them. -/
theorem wgslTypeIn?_array_append {element u : ValueType} {as digits comma : List Char}
    {count : UInt32} (he : Spells element as) (hn : wgslCount? digits = some count)
    (hc : comma = [] ∨ comma = [',']) (rest : List Char) {depth : Nat} (hdepth : as.length < depth) :
    wgslTypeIn? (depth + 1) ("array<".toList ++
      ((as ++ ',' :: (digits ++ (comma ++ '>' :: ';' :: rest))) ++ ['>'])) = some u ↔
      u = .array element count ∧ comma = [','] := by
  obtain ⟨hne, hdigits, hwhole⟩ := wgslCount?_plain hn
  have hinner := between?_eq_some_iff.2 (rfl : "array<".toList ++
    ((as ++ ',' :: (digits ++ (comma ++ '>' :: ';' :: rest))) ++ ['>']) = _)
  have hfirst := Text.topLevelPieces_append_comma (digits ++ (comma ++ '>' :: ';' :: rest))
    he.whole.nested (by rw [Int.zero_add, he.whole.closed])
  have htrim : Text.trim as = as := he.solid.trimmed
  rcases hc with rfl | rfl
  · -- the length goes on with the bracket, and is none
    obtain ⟨piece, pieces, hlength⟩ :=
      topLevelPieces_append_other (c := '>') (';' :: rest) hwhole.nested (by decide)
    have hmem : '>' ∈ Text.trim (digits ++ '>' :: piece) := by
      have hkept : '>' ∈ compact (Text.trim (digits ++ '>' :: piece)) := by
        rw [compact_trim]
        exact List.mem_filter.2 ⟨by simp, by decide⟩
      exact List.mem_of_mem_filter hkept
    obtain ⟨more, hsplit⟩ := splitTopLevel_cons
      (by rw [hfirst, List.nil_append, hlength]) (List.ne_nil_of_mem hmem)
    have hnone : wgslCount? (Text.trim (digits ++ '>' :: piece)) = none := by
      rw [Option.eq_none_iff_forall_ne_some]
      intro n hn
      exact absurd (wgslCount?_chars hn _ hmem) (by decide)
    rw [htrim] at hsplit
    simp only [wgslTypeIn?, hinner, hsplit, hnone]
    simp
  · have hlength := Text.topLevelPieces_append_comma ('>' :: ';' :: rest)
      hwhole.nested (by rw [Int.zero_add, hwhole.closed])
    have htrim' : Text.trim digits = digits := hdigits.trimmed
    obtain ⟨more, hsplit⟩ := splitTopLevel_cons
      (by rw [hfirst, List.singleton_append, hlength]) (by rwa [htrim'])
    rw [htrim, htrim'] at hsplit
    simp only [wgslTypeIn?, hinner, hsplit, he.reads_in hdepth, hn]
    simp [eq_comm]

/-- What reads as the type of a text that goes on behind the type with a semicolon: an array whose
length is followed by a comma reads when a closing bracket ends the text. -/
theorem wgslType?_semicolon {t u : ValueType} {type : List Char} (h : Spells t (compact type))
    (more : List Char) : wgslType? (type ++ ';' :: more) = some u ↔
      u = t ∧ [',', '>'] <:+ compact type ∧ (compact more).getLast? = some '>' := by
  have hcompact : compact (type ++ ';' :: more) = compact type ++ ';' :: compact more := by
    simp [compact, show Text.isBlank ';' = false by decide]
  rw [← wgslType?_compact, hcompact]
  generalize compact type = cs at h
  generalize hrest : compact more = rest
  have hsolid : Text.Solid (cs ++ ';' :: rest) := by
    rw [← hrest]
    intro c hc
    rcases List.mem_append.1 hc with hc | hc
    · exact h.solid c hc
    · rcases List.mem_cons.1 hc with rfl | hc
      · decide
      · exact solid_compact more c hc
  rw [wgslType?, compact_of_solid hsolid, wgslTypeIn?]
  cases h with
  | word h =>
    -- no word goes on with a semicolon, and none has a comma
    have hplain : wgslPlainType? (cs ++ ';' :: rest) = none := by
      rw [Option.eq_none_iff_forall_ne_some]
      intro v hv
      have hno := (wgslWords_chars _ (mem_wgslWords hv)).2.1
      simp at hno
    have hcomma := (wgslWords_chars _ h).2.2
    rw [String.toList_ofList] at hcomma
    simp only [between?_word h, hplain]
    refine iff_of_false (by simp) ?_
    rintro ⟨-, hsuffix, -⟩
    exact absurd (hsuffix.subset (by simp)) hcomma
  | @array element count as digits comma he hn hc =>
    have hmark : [',', '>'] <:+ "array<".toList ++ ((as ++ ',' :: (digits ++ comma)) ++ ['>']) ↔
        comma = [','] := by
      rcases hc with rfl | rfl
      · refine iff_of_false ?_ (by simp)
        rintro ⟨front, hfront⟩
        have hcancel : front ++ [','] = "array<".toList ++ (as ++ [',']) ++ digits :=
          (List.append_left_inj ['>']).1 (by simpa using hfront)
        have hlast := congrArg List.getLast? hcancel
        rw [List.getLast?_concat, List.getLast?_append_of_ne_nil _ (wgslCount?_plain hn).1] at hlast
        exact absurd (wgslCount?_chars hn _ (List.mem_of_getLast? hlast.symm)) (by decide)
      · exact iff_of_true ⟨"array<".toList ++ (as ++ ',' :: digits), by simp⟩ rfl
    rw [hmark]
    by_cases hlast : rest.getLast? = some '>'
    · obtain ⟨rest, rfl⟩ := List.getLast?_eq_some_iff.1 hlast
      have hsame : "array<".toList ++ ((as ++ ',' :: (digits ++ comma)) ++ ['>']) ++
          ';' :: (rest ++ ['>']) = "array<".toList ++
            ((as ++ ',' :: (digits ++ (comma ++ '>' :: ';' :: rest))) ++ ['>']) := by
        simp
      have hdepth : as.length < ("array<".toList ++ ((as ++ ',' :: (digits ++ comma)) ++ ['>']) ++
          ';' :: (rest ++ ['>'])).length := by
        simp
        omega
      have harray := wgslTypeIn?_array_append (u := u) he hn hc rest hdepth
      rw [← hsame, wgslTypeIn?] at harray
      rw [harray]
      simp [hlast]
    · have hnone : between? "array<" '>' ("array<".toList ++
          ((as ++ ',' :: (digits ++ comma)) ++ ['>']) ++ ';' :: rest) = none := by
        refine between?_of_getLast? ?_
        rw [List.getLast?_append_of_ne_nil _ (List.cons_ne_nil _ _)]
        cases rest with
        | nil => decide
        | cons c rest => rwa [List.getLast?_cons_cons]
      have hplain := wgslPlainType?_of_head (c := 'a') ("rray<".toList ++
        ((as ++ ',' :: (digits ++ comma)) ++ ['>']) ++ ';' :: rest) (by simp)
      simp only [hnone]
      refine iff_of_false (fun e => by cases hplain.symm.trans e) ?_
      rintro ⟨-, -, h⟩
      exact hlast h

/-! ### Signatures and bodies -/

/-- Where the first list of parameters of a source is looked for. -/
def declared? (d : Dialect) (source : String) : Option (List Glyph) :=
  match d with
  | .glsl => some (glyphs source.toList)
  | .wgsl => afterKeyword? false (glyphs source.toList)

/-- The signature of a function in front of its body. -/
def Parts.Signs (p : Parts) (d : Dialect) (f : Declaration) : Prop :=
  match d with
  | .glsl => p.SignsGlsl f
  | .wgsl => p.SignsWgsl f

/-- A function is read from the parts of its source. In GLSL whatever stands between the parameters
and the next block is passed over, the end of a declaration and other signatures included. In WGSL a
result type is read there, which an array with items behind its length is not; a declaration without
a body is read where such items start behind it and a closing bracket stands in front of the block. -/
theorem body_of_signature (d : Dialect) (source : String) (f : Declaration) :
    (Declaration.read d source = .ok f ↔
      ∃ gs, declared? d source = some gs ∧
        ∃ p : Parts, p.Cuts gs ∧ p.Signs d f ∧ f.body = p.text) ∧
    (∀ gap t text, wgslResult gap = .ok (t, text) →
      (Clause t gap ↔ ∀ type ∈ text, ¬Surplus (compact type.toList))) ∧
    ∀ t type more u, Spells t (compact type) →
      (wgslType? (type ++ ';' :: more) = some u ↔
        u = t ∧ [',', '>'] <:+ compact type ∧ (compact more).getLast? = some '>') := by
  refine ⟨?_, fun _ _ _ => clause_iff, fun _ _ more _ h => wgslType?_semicolon h more⟩
  cases d with
  | glsl =>
    have hread := @readGlsl_iff source f
    simpa [Declaration.read, declared?, Parts.Signs] using hread
  | wgsl => exact readWgsl_iff

/-- A declaration without a body in WGSL, and a function behind it. -/
def wgslPrototype : String :=
  "fn f(x: f32) -> array<f32, 4,>; fn g(y: f32) -> array<f32, 4> \x7b return array(y, y, y, y); \x7d"

/-- What is read of it: the signature of the first function and the body of the second. -/
def wgslPrototypeRead : Declaration where
  name := "f"
  inputs := [⟨"x", .float, .input, false, none⟩]
  result := .array .float 4
  form := .wgsl ["f32"] (some "array<f32, 4,>; fn g(y: f32) -> array<f32, 4>")
  body := "\x7b return array(y, y, y, y); \x7d"

/-- What stands between the parameters of the first function and the first block. -/
def wgslPrototypeGap : String := "-> array<f32, 4,>; fn g(y: f32) -> array<f32, 4>"

/-- The result type that is read there ends in front of the semicolon. -/
theorem wgslPrototype_type :
    Spells (.array .float 4) (compact "array<f32, 4,>".toList) ∧
      wgslType? ("array<f32, 4,>".toList ++ ';' :: " fn g(y: f32) -> array<f32, 4>".toList) =
        some (.array .float 4) := by
  have float : Spells .float "f32".toList := .word (by decide +kernel)
  have four : wgslCount? ['4'] = some 4 := by decide
  have weights : Spells (.array .float 4) (compact "array<f32, 4,>".toList) :=
    .array float four (.inr rfl : [','] = [] ∨ [','] = [','])
  obtain ⟨-, -, semicolon⟩ := body_of_signature .wgsl wgslPrototype wgslPrototypeRead
  exact ⟨weights, (semicolon _ _ _ _ weights).2 ⟨rfl, by decide, by decide⟩⟩

/-- In both dialects a declaration without a body takes that of the function behind it. -/
theorem prototypes_take_bodies :
    (∃ f, Declaration.read .glsl "float f(float x);\nfloat g(float y) \x7b return y; \x7d" = .ok f ∧
      f.name = "f" ∧ ∃ p : Parts,
        p.Cuts (glyphs "float f(float x);\nfloat g(float y) \x7b return y; \x7d".toList) ∧
        f.body = p.text ∧ p.gap = ";\nfloat g(float y)".toList) ∧
    ∃ f, Declaration.read .wgsl wgslPrototype = .ok f ∧ f.name = "f" ∧
      ∃ gs, declared? .wgsl wgslPrototype = some gs ∧ ∃ p : Parts, p.Cuts gs ∧ f.body = p.text ∧
        p.gap = wgslPrototypeGap.toList ∧ ¬Clause f.result p.gap := by
  refine ⟨⟨⟨"f", [⟨"x", .float, .input, false, none⟩], .float, .glsl "", "\x7b return y; \x7d"⟩, rfl, rfl,
      ⟨visible "float f".toList, visible "float x".toList, visible ";\nfloat g(float y) ".toList,
        visible " return y; ".toList, []⟩, ⟨by decide +kernel, by decide +kernel,
        by decide +kernel, by decide +kernel, by decide +kernel⟩, rfl, rfl⟩, ?_⟩
  have result : wgslResult wgslPrototypeGap.toList = .ok (.array .float 4,
      some "array<f32, 4,>; fn g(y: f32) -> array<f32, 4>") := rfl
  have surplus : Surplus (compact "array<f32, 4,>; fn g(y: f32) -> array<f32, 4>".toList) :=
    have inner : between? "array<" '>' (compact "array<f32, 4,>; fn g(y: f32) -> array<f32, 4>".toList)
        = some "f32,4,>;fng(y:f32)->array<f32,4".toList := rfl
    .here inner rfl
  refine ⟨wgslPrototypeRead, rfl, rfl, _, rfl,
    ⟨visible " f".toList, visible "x: f32".toList,
      visible (' ' :: (wgslPrototypeGap.toList ++ [' '])),
      visible " return array(y, y, y, y); ".toList, []⟩,
    ⟨by decide +kernel, by decide +kernel, by decide +kernel, by decide +kernel, by decide +kernel⟩,
    rfl, rfl, ?_⟩
  exact fun clause => (clause_iff result).1 clause _ rfl surplus

end ShaderGraph.Native
