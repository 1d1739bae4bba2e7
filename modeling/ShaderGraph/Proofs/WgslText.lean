import ShaderGraph.Native.Reader
import ShaderGraph.Proofs.Collections
import ShaderGraph.Proofs.GlslText

/-!
# WGSL functions read back

* The bound on the nesting of types does not matter (`wgslTypeIn?_of_length`), nor do blanks in
  a type (`wgslType?_compact`).
* `WgslWritable` says what text a parameter can have for its type: the text of its type
  (`WgslWritable.value`), or a pointer to it (`WgslWritable.pointer`).
* `wgslParameters_code` reads a list of parameters back, `readWgsl_code` the whole function.

A function that a reader can make, of either dialect, is written under any identifier as a text from
which the reader makes it again (`Declaration.read_code`).
-/

namespace ShaderGraph.Native

/-! ### Types -/

theorem between?_eq_some_iff {word : String} {closing : Char} {cs inner : List Char} :
    between? word closing cs = some inner ↔ cs = word.toList ++ (inner ++ [closing]) := by
  simp only [between?, Option.bind_eq_some_iff, Text.dropFront?_eq_some_iff,
    Text.dropBack?_eq_some_iff]
  constructor
  · rintro ⟨rest, rfl, rfl⟩
    rfl
  · rintro rfl
    exact ⟨_, rfl, rfl⟩

theorem length_of_mem_topLevelPieces {depth : Int} {cs piece : List Char}
    (h : piece ∈ Text.topLevelPieces depth cs) : piece.length ≤ cs.length := by
  induction cs generalizing depth piece with
  | nil => simp_all [Text.topLevelPieces]
  | cons c cs ih =>
    rw [Text.topLevelPieces] at h
    split at h
    · rcases List.mem_cons.1 h with rfl | h
      · simp
      · exact Nat.le_succ_of_le (ih h)
    · dsimp only at h
      split at h
      · rw [List.mem_singleton.1 h]
        simp
      · next hpieces =>
        rcases List.mem_cons.1 h with rfl | h
        · exact Nat.succ_le_succ (ih (by rw [hpieces]; exact .head _))
        · exact Nat.le_succ_of_le (ih (by rw [hpieces]; exact .tail _ h))

theorem length_trim_le (cs : List Char) : (Text.trim cs).length ≤ cs.length := by
  obtain ⟨bs, hbs, -⟩ := Text.trimRight_append_blanks (Text.trimLeft cs)
  have hleft : (Text.trimLeft cs).length ≤ cs.length :=
    (List.dropWhile_suffix _).length_le
  have hright := congrArg List.length hbs
  rw [List.length_append] at hright
  exact Nat.le_trans (by rw [Text.trim]; omega) hleft

theorem length_of_mem_splitTopLevel {cs piece : List Char} (h : piece ∈ Text.splitTopLevel cs) :
    piece.length ≤ cs.length := by
  have hmem : piece ∈ (Text.topLevelPieces 0 cs).map Text.trim := by
    unfold Text.splitTopLevel at h
    dsimp only at h
    split at h
    · exact List.dropLast_subset _ h
    · exact h
  obtain ⟨p, hp, rfl⟩ := List.mem_map.1 hmem
  exact Nat.le_trans (length_trim_le p) (length_of_mem_topLevelPieces hp)

/-- A bound above the length of the text does not matter. -/
theorem wgslTypeIn?_of_length {depth depth' : Nat} {cs : List Char} (h : cs.length < depth)
    (h' : cs.length < depth') : wgslTypeIn? depth cs = wgslTypeIn? depth' cs := by
  induction depth generalizing depth' cs with
  | zero => omega
  | succ depth ih =>
    obtain ⟨depth', rfl⟩ : ∃ d, depth' = d + 1 := ⟨depth' - 1, by omega⟩
    rw [wgslTypeIn?, wgslTypeIn?]
    cases hinner : between? "array<" '>' cs with
    | none => rfl
    | some inner =>
      have hlength : inner.length < cs.length := by
        rw [between?_eq_some_iff.1 hinner]
        simp
        omega
      dsimp only
      split
      · next element count _ hsplit =>
        have hmem : element ∈ Text.splitTopLevel inner := by simp [hsplit]
        have hle := length_of_mem_splitTopLevel hmem
        have same : wgslTypeIn? depth element = wgslTypeIn? depth' element :=
          ih (by omega) (by omega)
        rw [same]
      · rfl

theorem solid_compact (cs : List Char) : Text.Solid (compact cs) := by
  intro c hc
  simpa using (List.mem_filter.1 hc).2

/-- Blanks do not nest. -/
theorem nesting_compact (cs : List Char) : Text.nesting (compact cs) = Text.nesting cs := by
  have hcount : ∀ c, Text.isBlank c = false → (compact cs).count c = cs.count c :=
    fun c hc => List.count_filter (by simp [hc])
  simp only [Text.nesting, Text.excess, hcount _ (show Text.isBlank '<' = false by decide),
    hcount _ (show Text.isBlank '>' = false by decide),
    hcount _ (show Text.isBlank '(' = false by decide),
    hcount _ (show Text.isBlank ')' = false by decide)]

/-- Without its blanks, an item stays one. -/
theorem whole_compact {cs : List Char} (h : Text.Whole cs) :
    Text.Whole (compact cs) := by
  refine ⟨fun front back e => ?_, by rw [nesting_compact, h.closed]⟩
  obtain ⟨front', rest, rfl, hfront, hrest⟩ := List.filter_eq_append_iff.1 e
  obtain ⟨blanks, back', rfl, hblanks, -, -⟩ := List.filter_eq_cons_iff.1 hrest
  have hsame : Text.nesting (front' ++ blanks) = Text.nesting front := by
    have hnone : blanks.filter (fun c => !Text.isBlank c) = [] :=
      List.filter_eq_nil_iff.2 fun c hc => by simpa using hblanks c hc
    rw [← nesting_compact, ShaderGraph.Native.compact, List.filter_append, hfront, hnone,
      List.append_nil]
  rw [← hsame]
  exact h.nested _ back' (by simp)

/-- Blanks in a type do not matter. -/
theorem wgslType?_compact (cs : List Char) : wgslType? (compact cs) = wgslType? cs := by
  have hcompact : compact (compact cs) = compact cs := by
    simp [compact, List.filter_filter]
  unfold wgslType?
  rw [hcompact]
  exact wgslTypeIn?_of_length (Nat.lt_succ_self _)
    (Nat.lt_succ_of_le (List.length_filter_le _ _))

section Head

variable {word : String} {c w : Char}

theorem dropFront?_of_head (cs : List Char) (hword : word.toList.head? = some w) (h : w ≠ c) :
    Text.dropFront? word.toList (c :: cs) = none := by
  obtain ⟨ws, hws⟩ := List.head?_eq_some_iff.1 hword
  rw [hws, Text.dropFront?, if_neg h]

theorem ofList_ne_of_head (cs : List Char) (hword : word.toList.head? = some w) (h : w ≠ c) :
    word ≠ String.ofList (c :: cs) := by
  rintro rfl
  simp only [String.toList_ofList, List.head?_cons, Option.some.injEq] at hword
  exact h hword.symm

/-- A type that is no array starts with a letter of a few. -/
theorem wgslPlainType?_of_head (cs : List Char) (hc : ∀ d ∈ ['v', 'm', 'f', 'i', 'u', 'b'], d ≠ c) :
    wgslPlainType? (c :: cs) = none := by
  simp only [List.mem_cons, List.not_mem_nil, or_false, forall_eq_or_imp, forall_eq] at hc
  obtain ⟨hv, hm, hf, hi, hu, hb⟩ := hc
  have hvector : ∀ n, wgslVector? n (c :: cs) = none := by
    intro n
    rw [wgslVector?, between?, dropFront?_of_head cs (by cases n <;> rfl) hv]
    rfl
  have hmatrix : ∀ n m, wgslMatrix? n m (c :: cs) = none := by
    intro n m
    rw [wgslMatrix?, dropFront?_of_head cs (by cases n <;> cases m <;> rfl) hm]
    rfl
  have hscalar : wgslScalar? (String.ofList (c :: cs)) = none := by
    refine List.find?_eq_none.2 fun k _ => ?_
    rw [decide_eq_true_eq]
    cases k
    · exact ofList_ne_of_head cs rfl hb
    · exact ofList_ne_of_head cs rfl hi
    · exact ofList_ne_of_head cs rfl hu
    · exact ofList_ne_of_head cs rfl hf
  have hshort : wgslShortNames.contains (String.ofList (c :: cs)) = false := by
    have hhead : ∀ s ∈ wgslShortNames, s.toList.head? = some 'v' := by decide
    rw [List.contains_eq_mem, decide_eq_false_iff_not]
    exact fun hmem => ofList_ne_of_head cs (hhead _ hmem) hv rfl
  have hgeneric : wgslGeneric? (c :: cs) = none := by simp [wgslGeneric?, hvector, hmatrix]
  simp only [wgslPlainType?, hgeneric, hscalar, hshort]
  rfl

/-- No type starts with the sign of an attribute, none like a pointer. -/
theorem wgslType?_of_head (cs : List Char) (hc : ∀ d ∈ ['a', 'v', 'm', 'f', 'i', 'u', 'b'], d ≠ c)
    (hblank : Text.isBlank c = false) : wgslType? (c :: cs) = none := by
  have hcompact : compact (c :: cs) = c :: compact cs := by simp [compact, hblank]
  rw [wgslType?, hcompact, wgslTypeIn?, between?,
    dropFront?_of_head _ (w := 'a') rfl (hc _ (by simp))]
  exact wgslPlainType?_of_head _ fun d hd => hc d (List.mem_cons_of_mem _ hd)

end Head

/-! ### Parameters -/

/-- The parameter that takes a value of a type; arrays are told apart. -/
def Parameter.taking (name : String) (passing : Passing) : ValueType → Parameter
  | .array element n => ⟨name, element, passing, false, some n⟩
  | t => ⟨name, t, passing, false, none⟩

/-- The text of a type in a list of parameters, which shows where the type ends. -/
structure TypeText (type : List Char) : Prop where
  trimmed : Text.Trimmed type
  whole : Text.Whole type
  balanced : Text.Balanced '(' ')' type
  unmarked : Unmarked type

/-- A pointer shows where it ends when its target does. -/
theorem TypeText.pointer {target : List Char} (h : TypeText target) :
    TypeText ("ptr<function".toList ++ ([',', ' '] ++ (target ++ ['>']))) := by
  have hopen : Text.nesting "ptr<function".toList = 1 := by decide
  have hblank : Text.nesting [',', ' '] = 0 := by decide
  have hclose : Text.nesting ['>'] = -1 := by decide
  -- the comma behind the address space and those of the target are one bracket deeper
  have hspace : Text.Nested 1 [',', ' '] := by
    rintro (_ | ⟨c, front⟩) back e
    · decide
    · obtain ⟨-, e⟩ := List.cons.inj e
      cases front <;> simp at e
  have htarget : Text.Nested 1 target := fun front back e => by
    have := h.whole.nested front back e
    omega
  have hrest : Text.Nested 1 ([',', ' '] ++ (target ++ ['>'])) :=
    hspace.append (by rw [hblank]; exact htarget.append (.of_notMem (by decide)))
  have hwhole : Text.Whole ("ptr<function".toList ++ ([',', ' '] ++ (target ++ ['>']))) := by
    refine ⟨(Text.Nested.of_notMem (by decide)).append (by rwa [hopen]), ?_⟩
    rw [Text.nesting_append, Text.nesting_append, Text.nesting_append, hopen, hblank, hclose,
      h.whole.closed]
    rfl
  have hbalanced : Text.Balanced '(' ')' ("ptr<function".toList ++ [',', ' ']) :=
    .of_notMem (by decide) (by decide)
  have hend : Text.Balanced '(' ')' ['>'] := .of_notMem (by decide) (by decide)
  have hfirst : ("ptr<function".toList ++ ([',', ' '] ++ (target ++ ['>']))).head? = some 'p' := by
    simp
  have hlast : ("ptr<function".toList ++ ([',', ' '] ++ (target ++ ['>']))).getLast? =
      some '>' := by
    rw [← List.append_assoc, ← List.append_assoc, List.getLast?_concat]
  refine ⟨Text.trimmed_of_ends (by rw [hfirst]; rintro _ ⟨⟩; decide)
    (by rw [hlast]; rintro _ ⟨⟩; decide), hwhole, ?_, ?_⟩
  · simpa using hbalanced.append (h.balanced.append hend)
  · have hmarks : Unmarked (target ++ ['>']) := h.unmarked.append (by decide) fun _ => by simp
    exact Unmarked.append (by decide) (Unmarked.append (by decide) hmarks
      (absurd · (by decide))) (absurd · (by decide))

/-- A parameter as the reader makes them, with an identifier for its name, and the text of its
type. -/
structure WgslWritable (p : Parameter) (type : String) : Prop where
  name : isIdentifier p.name.toList = true
  text : TypeText type.toList
  /-- The text is that of the type of the parameter, or of a pointer to it. -/
  reads : ∃ passing value t, wgslPassing type.toList = .ok (passing, value) ∧
    wgslType? value = some t ∧ p = .taking p.name passing t

/-- The text of a parameter. -/
def wgslText (p : Parameter) (type : String) : List Char :=
  p.name.toList ++ ([':', ' '] ++ type.toList)

section Parameter

variable {p : Parameter} {type : String}

/-- A parameter has a type. -/
theorem WgslWritable.nonempty (h : WgslWritable p type) : type.toList ≠ [] := by
  intro hnil
  obtain ⟨passing, value, t, hpassing, htype, -⟩ := h.reads
  rw [hnil] at hpassing
  have hvalue : value = [] := by
    have : wgslPassing [] = .ok (.input, []) := by decide
    rw [this] at hpassing
    cases hpassing
    rfl
  rw [hvalue, show wgslType? [] = none by decide] at htype
  cases htype

/-- A parameter is one item of a list. -/
theorem WgslWritable.item (h : WgslWritable p type) :
    Text.Whole (wgslText p type) ∧ Text.Trimmed (wgslText p type) ∧ wgslText p type ≠ [] := by
  obtain ⟨hne, hword⟩ := isIdentifier_word h.name
  have hfront : ∀ c ∈ p.name.toList ++ [':', ' '],
      c ≠ '<' ∧ c ≠ '(' ∧ c ≠ '>' ∧ c ≠ ')' ∧ c ≠ ',' := by
    intro c hc
    rcases List.mem_append.1 hc with hc | hc
    · have hc := List.all_eq_true.1 hword c hc
      refine ⟨?_, ?_, ?_, ?_, ?_⟩ <;> rintro rfl <;> exact absurd hc (by decide)
    · rcases List.mem_pair.1 hc with rfl | rfl <;> decide
  refine ⟨?_, Text.trimmed_of_ends ?_ ?_, by simp [wgslText, hne]⟩
  · rw [wgslText, ← List.append_assoc]
    exact (Text.Whole.of_notMem hfront).append h.text.whole
  · intro c hc
    rw [wgslText, List.head?_append_of_ne_nil _ hne] at hc
    exact Text.Solid.of_wordChars hword c (List.mem_of_mem_head? hc)
  · rw [wgslText, ← List.append_assoc, List.getLast?_append_of_ne_nil _ h.nonempty]
    exact h.text.trimmed.getLast?

theorem dropAttributes_of_head? {cs : List Char} (h : Text.Trimmed cs)
    (hat : cs.head? ≠ some '@') : dropAttributes cs = cs := by
  rw [dropAttributes, show Text.trim cs = cs from h]
  cases cs with
  | nil => rfl
  | cons c cs =>
    rw [dropAttributesIn]
    rintro _ ds _ e
    exact hat (by rw [e]; rfl)

/-- A parameter reads back from its text. -/
theorem wgslParameter_code (h : WgslWritable p type) :
    wgslParameter (wgslText p type) = .ok (p, type) := by
  obtain ⟨hne, hword⟩ := isIdentifier_word h.name
  obtain ⟨passing, value, t, hpassing, htype, hp⟩ := h.reads
  have hattributes : dropAttributes (wgslText p type) = wgslText p type := by
    refine dropAttributes_of_head? h.item.2.1 fun hhead => ?_
    rw [wgslText, List.head?_append_of_ne_nil _ hne] at hhead
    exact absurd (List.all_eq_true.1 hword _ (List.mem_of_mem_head? hhead)) (by decide)
  have hcut : Text.cutAt (· == ':') (wgslText p type) = some (p.name.toList, ' ' :: type.toList) :=
    Text.cutAt_append _ (fun c hc => Text.ne_of_isWordChar (by decide) hword hc) rfl
  have hname : Text.trim p.name.toList = p.name.toList :=
    (Text.Solid.of_wordChars hword).trimmed
  have htext : Text.trim (' ' :: type.toList) = type.toList := by
    rw [Text.trim_cons_blank _ Text.isBlank_space]
    exact h.text.trimmed
  simp only [wgslParameter, hattributes, hcut, hname, htext, hpassing, htype, bind, Except.bind,
    String.ofList_toList]
  cases t <;> exact congrArg Except.ok (Prod.ext hp.symm rfl)

/-- A parameter that is passed by value. -/
theorem WgslWritable.value {name : String} {t : ValueType} (hname : isIdentifier name.toList = true)
    (htext : TypeText type.toList) (h : wgslType? type.toList = some t) :
    WgslWritable (.taking name .input t) type := by
  have hcompact := (wgslType?_compact type.toList).trans h
  have hpassing : wgslPassing type.toList = .ok (.input, compact type.toList) := by
    have hnone : between? "ptr<" '>' (compact type.toList) = none := by
      rw [Option.eq_none_iff_forall_ne_some]
      intro inner e
      have hhead : wgslType? (compact type.toList) = none := by
        rw [between?_eq_some_iff.1 e]
        exact wgslType?_of_head (c := 'p') _ (by simp) (by decide)
      rw [hhead] at hcompact
      cases hcompact
    simp only [wgslPassing, hnone]
  have hsame : (Parameter.taking name .input t).name = name := by cases t <;> rfl
  exact ⟨by rwa [hsame], htext, .input, compact type.toList, t, hpassing, hcompact, by rw [hsame]⟩

/-- A parameter that is passed by a pointer. -/
theorem WgslWritable.pointer {name target : String} {t : ValueType}
    (hname : isIdentifier name.toList = true) (htext : TypeText target.toList)
    (h : wgslType? target.toList = some t) :
    WgslWritable (.taking name .inputOutput t) ("ptr<function, " ++ target ++ ">") := by
  have hchars : ("ptr<function, " ++ target ++ ">").toList =
      "ptr<function".toList ++ ([',', ' '] ++ (target.toList ++ ['>'])) := by simp
  have hne : compact target.toList ≠ [] := by
    intro e
    rw [← wgslType?_compact, e, show wgslType? [] = none by decide] at h
    cases h
  have hpieces : Text.splitTopLevel ("function,".toList ++ compact target.toList) =
      ["function".toList, compact target.toList] := by
    have hwhole := whole_compact htext.whole
    have hfirst : Text.topLevelPieces 0 ("function".toList ++ ',' :: compact target.toList) =
        ["function".toList, compact target.toList] := by
      have hword : Text.Whole "function".toList := .of_notMem (by simp)
      rw [Text.topLevelPieces_append_comma _ hword.nested (by rw [Int.zero_add, hword.closed]),
        Text.topLevelPieces_eq_singleton hwhole.nested]
    have htrim : Text.trim (compact target.toList) = compact target.toList :=
      (solid_compact _).trimmed
    have hmap : ["function".toList, compact target.toList].map Text.trim =
        ["function".toList, compact target.toList] := by
      rw [List.map_cons, List.map_singleton, htrim]
      rfl
    have hpieces : Text.topLevelPieces 0 ("function,".toList ++ compact target.toList) =
        ["function".toList, compact target.toList] := hfirst
    simp only [Text.splitTopLevel, hpieces, hmap]
    rw [if_neg]
    simpa using hne
  have hcompact : compact ("ptr<function, " ++ target ++ ">").toList =
      "ptr<".toList ++ (("function,".toList ++ compact target.toList) ++ ['>']) := by
    rw [hchars, compact, List.filter_append, List.filter_append, List.filter_append]
    have hword : "ptr<function".toList.filter (fun c => !Text.isBlank c) =
        "ptr<".toList ++ "function".toList := by decide
    have hcomma : [',', ' '].filter (fun c => !Text.isBlank c) = [','] := by decide
    have hclose : ['>'].filter (fun c => !Text.isBlank c) = ['>'] := by decide
    rw [hword, hcomma, hclose]
    simp [compact]
  have hpassing : wgslPassing ("ptr<function, " ++ target ++ ">").toList =
      .ok (.inputOutput, compact target.toList) := by
    have hinner := between?_eq_some_iff.2 hcompact
    simp only [wgslPassing, hinner, hpieces]
  have hsame : (Parameter.taking name .inputOutput t).name = name := by cases t <;> rfl
  refine ⟨by rwa [hsame], ?_, .inputOutput, compact target.toList, t, hpassing,
    (wgslType?_compact _).trans h, by rw [hsame]⟩
  rw [hchars]
  exact htext.pointer

end Parameter

/-- The text of a parameter list. -/
def wgslList (ps : List Parameter) (types : List String) : List Char :=
  [',', ' '].intercalate (List.zipWith wgslText ps types)

section List

variable {ps : List Parameter} {types : List String}

theorem exists_of_mem_zipWith (h : List.Forall₂ WgslWritable ps types) {i : List Char}
    (hi : i ∈ List.zipWith wgslText ps types) : ∃ p type, WgslWritable p type ∧ i = wgslText p type := by
  induction h with
  | nil => cases hi
  | cons hp _ ih =>
    rcases List.mem_cons.1 hi with rfl | hi
    · exact ⟨_, _, hp, rfl⟩
    · exact ih hi

/-- A parameter list reads back from its text. -/
theorem wgslParameters_code (h : List.Forall₂ WgslWritable ps types) :
    (Text.splitTopLevel (wgslList ps types)).mapM wgslParameter = .ok (ps.zip types) := by
  have hitem : ∀ i ∈ List.zipWith wgslText ps types, Text.Whole i ∧ Text.Trimmed i ∧ i ≠ [] := by
    intro i hi
    obtain ⟨p, type, hp, rfl⟩ := exists_of_mem_zipWith h hi
    exact hp.item
  rw [wgslList, Text.splitTopLevel_intercalate hitem]
  clear hitem
  induction h with
  | nil => rfl
  | cons hp _ ih =>
    rw [List.zipWith_cons_cons, List.mapM_cons, wgslParameter_code hp, ih]
    rfl

/-- The parentheses in a parameter list are closed, and no comment starts in it. -/
theorem wgslList_text (h : List.Forall₂ WgslWritable ps types) :
    Text.Balanced '(' ')' (wgslList ps types) ∧ Unmarked (wgslList ps types) := by
  refine ⟨.intercalate (.of_notMem (by decide) (by decide)) fun i hi => ?_,
    .intercalate fun i hi => ?_⟩
  · obtain ⟨p, type, hp, rfl⟩ := exists_of_mem_zipWith h hi
    have hword := (isIdentifier_word hp.name).2
    have hname : Text.Balanced '(' ')' p.name.toList :=
      .of_notMem (fun hm => absurd (List.all_eq_true.1 hword _ hm) (by decide))
        (fun hm => absurd (List.all_eq_true.1 hword _ hm) (by decide))
    exact hname.append ((Text.Balanced.of_notMem (by decide) (by decide)).append hp.text.balanced)
  · obtain ⟨p, type, hp, rfl⟩ := exists_of_mem_zipWith h hi
    have hname : Unmarked (p.name.toList ++ [':', ' ']) := by
      have hword := (isIdentifier_word hp.name).2
      refine .of_notMem fun hm => ?_
      rcases List.mem_append.1 hm with hm | hm
      · exact absurd (List.all_eq_true.1 hword _ hm) (by decide)
      · exact absurd hm (by decide)
    rw [wgslText, ← List.append_assoc]
    exact hname.append hp.text.unmarked (by simp)

end List

/-! ### Functions -/

/-- A result type and its text. -/
inductive WgslResult : ValueType → Option String → Prop
  | absent : WgslResult .void none
  | present {t : ValueType} {text : String} (reads : wgslType? text.toList = some t)
      (trimmed : Text.Trimmed text.toList) (unmarked : Unmarked text.toList)
      (noBrace : '\x7b' ∉ text.toList) : WgslResult t (some text)

/-- A WGSL function as the reader makes them, with identifiers for names and a body in which no
comment starts. -/
structure WgslFunction (f : Declaration) (types : List String) (result : Option String) : Prop where
  form : f.form = .wgsl types result
  inputs : List.Forall₂ WgslWritable f.inputs types
  result : WgslResult f.result result
  body : IsBlock f.body.toList
  plainBody : Unmarked f.body.toList

/-- What is written between the parameters and the body. -/
def arrowText : Option String → List Char
  | some text => ' ' :: ('-' :: '>' :: ' ' :: text.toList ++ [' '])
  | none => [' ']

theorem toList_code_wgsl {f : Declaration} {types : List String} {result : Option String}
    (h : f.form = .wgsl types result) (name : String) : (f.code name).toList =
      'f' :: 'n' :: ' ' :: (name.toList ++ '(' :: (wgslList f.inputs types ++
        ')' :: (arrowText result ++ f.body.toList))) := by
  have htext : ∀ (p : Parameter) (type : String),
      (toString p.name ++ toString ": " ++ toString type).toList = wgslText p type := by
    intro p type
    simp [wgslText, show ∀ s : String, toString s = s from fun _ => rfl]
  have hlist : ∀ ps : List Parameter, (", ".intercalate (List.zipWith (fun p type =>
      toString p.name ++ toString ": " ++ toString type) ps types)).toList = wgslList ps types := by
    intro ps
    simp only [String.toList_intercalate, List.map_zipWith, htext]
    rfl
  simp only [Declaration.code, h]
  cases result <;> simp only [String.toList_append, hlist] <;> simp [arrowText]

/-- No body and no comment starts between the parameters and the body. -/
theorem arrowText_text {t : ValueType} {result : Option String} (h : WgslResult t result) :
    '\x7b' ∉ arrowText result ∧ Unmarked (arrowText result) := by
  cases h with
  | absent => decide
  | @present t text reads trimmed unmarked noBrace =>
    refine ⟨by simpa [arrowText] using noBrace, ?_⟩
    have hfront : Unmarked ([' ', '-', '>', ' '] ++ text.toList) :=
      Unmarked.append (by decide) unmarked (by simp)
    exact hfront.append (by decide : Unmarked [' ']) (by simp)

/-- The result type reads back from its text. -/
theorem wgslResult_arrow {t : ValueType} {result : Option String} (h : WgslResult t result) :
    wgslResult (Text.trim (arrowText result)) = .ok (t, result) := by
  cases h with
  | absent => rfl
  | @present t text reads trimmed unmarked noBrace =>
    have hne : text.toList ≠ [] := by
      intro e
      rw [e, show wgslType? [] = none by decide] at reads
      cases reads
    have hat : text.toList.head? ≠ some '@' := by
      intro e
      obtain ⟨cs, hcs⟩ := List.head?_eq_some_iff.1 e
      rw [hcs, wgslType?_of_head cs (by simp) (by decide)] at reads
      cases reads
    have hends : Text.Trimmed ('-' :: '>' :: ' ' :: text.toList) := by
      refine Text.trimmed_of_ends (by simp; decide) ?_
      have := trimmed.getLast?
      rwa [← List.getLast?_append_of_ne_nil ['-', '>', ' '] hne] at this
    have htrim : Text.trim (arrowText (some text)) = '-' :: '>' :: ' ' :: text.toList := by
      rw [arrowText, Text.trim_cons_blank _ Text.isBlank_space]
      exact (Text.trim_concat_blank _ Text.isBlank_space).trans hends
    have hdrop : dropAttributes (' ' :: text.toList) = text.toList := by
      have hsame : Text.trim (' ' :: text.toList) = text.toList := by
        rw [Text.trim_cons_blank _ Text.isBlank_space]
        exact trimmed
      rw [dropAttributes, hsame]
      obtain ⟨c, cs, hcs⟩ := List.exists_cons_of_ne_nil hne
      rw [hcs, dropAttributesIn]
      rintro _ ds _ e
      exact hat (by rw [hcs, e]; rfl)
    have htext : Text.trim text.toList = text.toList := trimmed
    have hfront : Text.dropFront? ['-', '>'] ('-' :: '>' :: ' ' :: text.toList) =
        some (' ' :: text.toList) := Text.dropFront?_append ['-', '>'] _
    simp only [wgslResult, htrim, hfront, hdrop, htext, reads, String.ofList_toList]

/-- A WGSL function reads back from its text. -/
theorem readWgsl_code {f : Declaration} {types : List String} {result : Option String}
    (h : WgslFunction f types result) {name : String} (hname : isIdentifier name.toList = true) :
    readWgsl (f.code name) = .ok { f with name := name } := by
  obtain ⟨hnonempty, hword⟩ := isIdentifier_word hname
  obtain ⟨hbalanced, hlistUnmarked⟩ := wgslList_text h.inputs
  obtain ⟨hbrace, harrow⟩ := arrowText_text h.result
  have hopens : ∀ b ∈ f.body.toList.head?, b ≠ '/' ∧ b ≠ '*' := by
    rw [h.body.opens]
    rintro _ ⟨⟩
    decide
  have hunmarked : Unmarked (f.code name).toList := by
    have hslash : '/' ∉ ('f' :: 'n' :: ' ' :: name.toList) ++ ['('] := by
      have hname : '/' ∉ name.toList :=
        fun hm => absurd (List.all_eq_true.1 hword _ hm) (by decide)
      simp [hname]
    have hlast : (('f' :: 'n' :: ' ' :: name.toList) ++ ['(']).getLast? ≠ some '/' := by
      rw [List.getLast?_concat]
      decide
    have hback : Unmarked ([')'] ++ (arrowText result ++ f.body.toList)) :=
      Unmarked.append (by decide) (harrow.append h.plainBody fun _ => hopens) (by simp)
    have hfront := ((Unmarked.of_notMem hslash).append hlistUnmarked (absurd · hlast)).append
      hback (by simp)
    rw [toList_code_wgsl h.form]
    simpa using hfront
  have hkeyword : afterKeyword? false (glyphs (f.code name).toList) =
      some (visible (' ' :: (name.toList ++ '(' :: (wgslList f.inputs types ++
        ')' :: (arrowText result ++ f.body.toList))))) := by
    rw [glyphs_of_unmarked hunmarked, toList_code_wgsl h.form]
    rfl
  have hcut : beforeParameters? (visible (' ' :: (name.toList ++ '(' :: (wgslList f.inputs types ++
        ')' :: (arrowText result ++ f.body.toList))))) =
      some (visible (' ' :: name.toList), visible (wgslList f.inputs types ++
        ')' :: (arrowText result ++ f.body.toList))) := by
    rw [← List.cons_append, visible_append, visible_cons]
    refine Text.cutAt_append _ (fun g hg => ?_) rfl
    rcases List.mem_cons.1 hg with rfl | hg
    · rfl
    · obtain ⟨c, hc, rfl⟩ := List.mem_map.1 hg
      exact Text.ne_of_isWordChar (by decide) hword hc
  have hsolid : Text.Solid name.toList := .of_wordChars hword
  have htrim : Text.trim (' ' :: name.toList) = name.toList := by
    rw [Text.trim_cons_blank _ Text.isBlank_space]
    exact hsolid.trimmed
  have hvalid : (name.toList.isEmpty || name.toList.any Text.isBlank) = false := by
    rw [Bool.or_eq_false_iff, List.isEmpty_eq_false_iff, List.any_eq_false]
    exact ⟨hnonempty, fun c hc => by simp [hsolid c hc]⟩
  have hlist := parameterList_visible .wgsl (arrowText result ++ f.body.toList) hbalanced
  have hbody := body_visible hbrace h.body
  have hlength : f.inputs.length = types.length := h.inputs.length_eq
  simp only [readWgsl, hkeyword, hcut, blanked_visible, htrim, hvalid, hlist, hbody,
    wgslParameters_code h.inputs, wgslResult_arrow h.result, bind, Except.bind, Bool.false_eq_true,
    if_false, List.map_fst_zip hlength.le, List.map_snd_zip hlength.ge, String.ofList_toList]
  rw [← h.form]
  rfl

/-! ### Both dialects -/

/-- A function as the reader of its dialect makes them, with identifiers for names and a body in
which no comment starts. -/
inductive Declaration.Writable (f : Declaration) : Prop
  | glsl {preamble : String} (h : GlslFunction f preamble)
  | wgsl {types : List String} {result : Option String} (h : WgslFunction f types result)

/-- A function reads back from its text: under the name it was written with, with the same
parameters, the same result type and the same body. -/
theorem Declaration.read_code {f : Declaration} (h : f.Writable) {name : String}
    (hname : isIdentifier name.toList = true) :
    ∃ g, Declaration.read f.dialect (f.code name) = .ok g ∧ g.name = name ∧
      g.inputs = f.inputs ∧ g.result = f.result ∧ g.body = f.body ∧ g.dialect = f.dialect := by
  cases h with
  | glsl h =>
    obtain ⟨preamble, hread⟩ := readGlsl_code h hname
    have hdialect : f.dialect = .glsl := by rw [dialect, h.form]
    rw [hdialect]
    exact ⟨_, hread, rfl, rfl, rfl, rfl, rfl⟩
  | wgsl h =>
    have hread := readWgsl_code h hname
    have hdialect : f.dialect = .wgsl := by rw [dialect, h.form]
    rw [hdialect]
    exact ⟨_, hread, rfl, rfl, rfl, rfl, hdialect⟩

/-- A GLSL function with all kinds of parameters, behind a comment. -/
def blend : Declaration where
  name := "mixed"
  inputs :=
    [⟨"a", .vec3, .input, true, none⟩, ⟨"w", .float, .inputOutput, false, some 4⟩,
      ⟨"o", .vec2, .output, false, none⟩]
  result := .array .float 2
  form := .glsl "// weights (four of them)\n#define WEIGHTS 4"
  body := "\x7b o = a.xy; return float[2](w[0], w[1]); \x7d"

/-- A WGSL function with a pointer and an array. -/
def accumulate : Declaration where
  name := "summed"
  inputs := [⟨"total", .vec3, .inputOutput, false, none⟩, ⟨"weights", .float, .input, false, some 4⟩]
  result := .float
  form := .wgsl ["ptr<function, vec3<f32>>", "array<f32, 4>"] (some "f32")
  body := "\x7b *total = *total * weights[0]; return weights[1]; \x7d"

theorem blend_writable : blend.Writable := by
  have passable : Passable "// weights (four of them)\n#define WEIGHTS 4".toList :=
    ⟨by decide, by decide⟩
  refine .glsl ⟨rfl, passable, ?_, ⟨"float[2]", by decide⟩, by decide, by decide⟩
  intro p hp
  simp only [blend, List.mem_cons, List.not_mem_nil, or_false] at hp
  rcases hp with rfl | rfl | rfl
  · exact ⟨by decide, by decide, "vec3".toList, by decide, by decide⟩
  · exact ⟨by decide, by decide, "float".toList, by decide, by decide⟩
  · exact ⟨by decide, by decide, "vec2".toList, by decide, by decide⟩

theorem accumulate_writable : accumulate.Writable := by
  have target : TypeText "vec3<f32>".toList := ⟨by decide, by decide, by decide, by decide⟩
  have weights : TypeText "array<f32, 4>".toList := ⟨by decide, by decide, by decide, by decide⟩
  have targetType : wgslType? "vec3<f32>".toList = some .vec3 := by decide
  have weightsType : wgslType? "array<f32, 4>".toList = some (.array .float 4) := by decide
  have total : isIdentifier "total".toList = true := by decide
  have hinputs : List.Forall₂ WgslWritable accumulate.inputs
      ["ptr<function, vec3<f32>>", "array<f32, 4>"] :=
    .cons (.pointer total target targetType) (.cons (.value (by decide) weights weightsType) .nil)
  exact .wgsl ⟨rfl, hinputs, .present (by decide) (by decide) (by decide) (by decide),
    by decide, by decide⟩

/-- Both functions read back under other names. -/
theorem blend_accumulate_read :
    (blend.Writable ∧ ∃ g, Declaration.read .glsl (blend.code "blend_1") = .ok g ∧
      g.name = "blend_1" ∧ g.inputs = blend.inputs ∧ g.result = blend.result ∧
      g.body = blend.body) ∧
    (accumulate.Writable ∧ ∃ g, Declaration.read .wgsl (accumulate.code "acc_2") = .ok g ∧
      g.name = "acc_2" ∧ g.inputs = accumulate.inputs ∧ g.result = accumulate.result ∧
      g.body = accumulate.body) := by
  obtain ⟨g, hg, hname, hinputs, hresult, hbody, -⟩ :=
    Declaration.read_code blend_writable (by decide : isIdentifier "blend_1".toList = true)
  obtain ⟨g', hg', hname', hinputs', hresult', hbody', -⟩ :=
    Declaration.read_code accumulate_writable (by decide : isIdentifier "acc_2".toList = true)
  exact ⟨⟨blend_writable, g, hg, hname, hinputs, hresult, hbody⟩,
    accumulate_writable, g', hg', hname', hinputs', hresult', hbody'⟩

end ShaderGraph.Native
