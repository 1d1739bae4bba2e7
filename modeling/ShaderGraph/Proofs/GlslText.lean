import Mathlib.Data.List.TakeWhile
import ShaderGraph.Native.Reader
import ShaderGraph.Proofs.Collections
import ShaderGraph.Proofs.Markers

/-!
# GLSL functions read back

* Names of types and identifiers are single words (`isBlank_of_isWordChar`,
  `ValueType.name_solid`); the name of a type reads as the type (`glslType_name`).
* `glslParameter_code` reads a parameter back from its text, `glslParameters_code` a list of
  them, and `glslHeader_of_words` what stands before the list.
* A `Passable` preamble hides no parenthesis and leaves no comment open. The reader returns no
  other (`readGlsl_passable`).
* `readGlsl_code` reads the whole function back.
-/

namespace ShaderGraph

/-! ### Words -/

theorem Text.isBlank_of_isWordChar {c : Char} (h : Name.isWordChar c = true) :
    Text.isBlank c = false := by
  rw [Bool.eq_false_iff]
  intro hb
  change (decide (c.val ≥ 65 ∧ c.val ≤ 90) || (c.val ≥ 97 && c.val ≤ 122)
    || (c.val ≥ 48 && c.val ≤ 57) || c == '_') = true at h
  simp only [Bool.or_eq_true, Bool.and_eq_true, decide_eq_true_eq, beq_iff_eq, ge_iff_le,
    UInt32.le_iff_toNat_le] at h
  simp only [Text.isBlank, Text.blankRanges, List.any_cons, List.any_nil, Bool.or_false,
    Bool.or_eq_true, Bool.and_eq_true, decide_eq_true_eq] at hb
  have hn : c.val.toNat = c.toNat := rfl
  rcases h with h | rfl
  · simp at h
    omega
  · revert hb; decide

theorem Text.Solid.of_wordChars {cs : List Char} (h : cs.all Name.isWordChar = true) :
    Text.Solid cs :=
  fun c hc => Text.isBlank_of_isWordChar (List.all_eq_true.1 h c hc)

/-- A character that belongs to no word is different from those of a word. -/
theorem Text.ne_of_isWordChar {cs : List Char} {c d : Char} (hd : Name.isWordChar d = false)
    (h : cs.all Name.isWordChar = true) (hc : c ∈ cs) : (c == d) = false := by
  refine beq_false_of_ne ?_
  rintro rfl
  exact absurd (List.all_eq_true.1 h c hc) (by simp [hd])

namespace ValueType

/-! ### Names of types -/

/-- A type whose name is one word that reads back. -/
structure IsPlain (t : ValueType) : Prop where
  reads : ofPlainName? t.name.toList = some t
  nonempty : t.name.toList ≠ []
  word : t.name.toList.all Name.isWordChar = true

instance (t : ValueType) : Decidable t.IsPlain :=
  decidable_of_iff (ofPlainName? t.name.toList = some t ∧ t.name.toList ≠ [] ∧
      t.name.toList.all Name.isWordChar = true)
    ⟨fun h => ⟨h.1, h.2.1, h.2.2⟩, fun h => ⟨h.reads, h.nonempty, h.word⟩⟩

theorem isPlain_of_aliases : ∀ p ∈ aliases, p.2.IsPlain := by decide +kernel

/-- The types that have a name without brackets. -/
theorem isPlain_of_ofPlainName? {cs : List Char} {t : ValueType} (h : ofPlainName? cs = some t) :
    t.IsPlain := by
  obtain ⟨front, _, e, -⟩ := List.lookup_eq_some_iff.1 h
  exact isPlain_of_aliases (String.ofList ((Text.trim cs).map Char.toLower), t) (by rw [e]; simp)

/-- The text of a length. -/
theorem toList_toString (n : UInt32) : (toString n).toList = Nat.toDigits 10 n.toNat :=
  Nat.toList_repr

/-- The digits of a number are digits. -/
theorem digits_wordChars (n : Nat) : (Nat.toDigits 10 n).all Name.isWordChar = true := by
  refine List.all_eq_true.2 fun c hc => ?_
  have h := Nat.isDigit_of_mem_toDigits (b := 10) (by decide) (by decide) hc
  simp [Name.isWordChar, Char.isAlphanum, h]

theorem name_array (e : ValueType) (n : UInt32) : (ValueType.array e n).name.toList =
    e.name.toList ++ '[' :: (Nat.toDigits 10 n.toNat ++ [']']) := by
  simp [name, Nat.toList_repr]

/-- A type that has a name: a plain one, or an array of plain ones. -/
inductive IsNamed : ValueType → Prop
  | plain {t : ValueType} (h : t.IsPlain) : IsNamed t
  | array {e : ValueType} (h : e.IsPlain) (n : UInt32) : IsNamed (.array e n)

theorem isNamed_of_ofName? {s : String} {t : ValueType} (h : ofName? s = some t) :
    t.IsNamed := by
  unfold ofName? at h
  dsimp only at h
  split at h
  · exact .plain (isPlain_of_ofPlainName? h)
  · split at h
    · cases h
    split at h
    · next n e _ he =>
      cases h
      exact .array (isPlain_of_ofPlainName? he) n
    · cases h

namespace IsNamed

variable {t : ValueType}

/-- The characters of a name. -/
theorem chars (h : t.IsNamed) {c : Char} (hc : c ∈ t.name.toList) :
    Name.isWordChar c = true ∨ c = '[' ∨ c = ']' := by
  cases h with
  | plain h => exact .inl (List.all_eq_true.1 h.word c hc)
  | @array e h n =>
    rw [name_array] at hc
    simp only [List.mem_append, List.mem_cons, List.not_mem_nil, or_false] at hc
    rcases hc with hc | rfl | hc | rfl
    · exact .inl (List.all_eq_true.1 h.word c hc)
    · exact .inr (.inl rfl)
    · exact .inl (List.all_eq_true.1 (digits_wordChars n.toNat) c hc)
    · exact .inr (.inr rfl)

theorem solid (h : t.IsNamed) : Text.Solid t.name.toList := by
  intro c hc
  rcases h.chars hc with hc | rfl | rfl
  · exact Text.isBlank_of_isWordChar hc
  · decide
  · decide

theorem nonempty (h : t.IsNamed) : t.name.toList ≠ [] := by
  cases h with
  | plain h => exact h.nonempty
  | array h n => rw [name_array]; simp

/-- A character that stands in no name. -/
theorem notMem (h : t.IsNamed) {c : Char} (hword : Name.isWordChar c = false) (hopen : c ≠ '[')
    (hclose : c ≠ ']') : c ∉ t.name.toList := by
  intro hc
  rcases h.chars hc with h | h | h
  · simp [hword] at h
  · exact hopen h
  · exact hclose h

/-- The name of a type denotes it. -/
theorem ofName?_name (h : t.IsNamed) : ofName? t.name = some t := by
  have htrim : Text.trim t.name.toList = t.name.toList := h.solid.trimmed
  cases h with
  | plain h =>
    have hcut : Text.cutAt (· == '[') t.name.toList = none :=
      Text.cutAt_eq_none_iff.2 fun c hc => Text.ne_of_isWordChar (by decide) h.word hc
    simp only [ofName?, htrim, hcut, h.reads]
  | @array e h n =>
    have hcut : Text.cutAt (· == '[') (ValueType.array e n).name.toList =
        some (e.name.toList, Nat.toDigits 10 n.toNat ++ [']']) := by
      rw [name_array]
      exact Text.cutAt_append _ (fun c hc => Text.ne_of_isWordChar (by decide) h.word hc) rfl
    have hdigits : Text.trim (Nat.toDigits 10 n.toNat) = Nat.toDigits 10 n.toNat :=
      (Text.Solid.of_wordChars (digits_wordChars n.toNat)).trimmed
    simp only [ofName?, htrim, hcut, Text.dropBack?_append, hdigits,
      Text.readWord32?_toDigits, h.reads]

end IsNamed

end ValueType

namespace Native

/-! ### Types of functions -/

theorem glslType_eq_ok_iff {s : String} {t : ValueType} :
    glslType s = .ok t ↔ ValueType.ofName? s = some t ∧ t ≠ .texture := by
  unfold glslType
  split
  · next h => simp_all
  · next h => simp_all
  · next u hne hu =>
    rw [hu]
    constructor
    · rintro h
      cases h
      exact ⟨rfl, by rintro rfl; exact hne rfl⟩
    · rintro ⟨h, -⟩
      cases h
      rfl

/-- The name of a type that was read reads as the type. -/
theorem glslType_name {s : String} {t : ValueType} (h : glslType s = .ok t) :
    t.IsNamed ∧ glslType t.name = .ok t := by
  obtain ⟨hread, hne⟩ := glslType_eq_ok_iff.1 h
  have hnamed := ValueType.isNamed_of_ofName? hread
  exact ⟨hnamed, glslType_eq_ok_iff.2 ⟨hnamed.ofName?_name, hne⟩⟩

/-- The type of a parameter has a name without brackets. -/
theorem isPlain_of_glslType {stem : List Char} {t : ValueType} (hno : '[' ∉ stem)
    (h : glslType (String.ofList stem) = .ok t) : t.IsPlain := by
  have hread := (glslType_eq_ok_iff.1 h).1
  have hcut : Text.cutAt (· == '[') (Text.trim stem) = none := by
    refine Text.cutAt_eq_none_iff.2 fun c hc => beq_false_of_ne ?_
    rintro rfl
    exact hno (Text.mem_of_mem_trim hc)
  simp only [ValueType.ofName?, String.toList_ofList, hcut] at hread
  exact ValueType.isPlain_of_ofPlainName? hread

/-! ### Parameters -/

/-- Words that qualify a parameter and are no names. -/
def qualifiers : List String := ["const", "in", "out", "inout"] ++ precisions

/-- A parameter as the reader makes them, with an identifier for its name. -/
structure GlslWritable (p : Parameter) : Prop where
  name : isIdentifier p.name.toList = true
  notQualifier : p.name ∉ qualifiers
  /-- The type is what some word names, the brackets of an array apart. -/
  type : ∃ stem : List Char, '[' ∉ stem ∧ glslType (String.ofList stem) = .ok p.type

theorem isIdentifier_word {cs : List Char} (h : isIdentifier cs = true) :
    cs ≠ [] ∧ cs.all Name.isWordChar = true := by
  cases cs with
  | nil => cases h
  | cons c cs => simp_all [isIdentifier]

/-- A word that is no qualifier stays. -/
theorem Qualified.take_word (q : Qualified) {word : List Char}
    (h : String.ofList word ∉ qualifiers) :
    q.take word = { q with words := q.words ++ [word] } := by
  simp only [qualifiers, List.mem_append, List.mem_cons, List.not_mem_nil, or_false,
    not_or] at h
  obtain ⟨⟨hconst, hin, hout, hinout⟩, hprecision⟩ := h
  unfold Qualified.take
  split
  iterate 4 contradiction
  rw [if_neg (by simpa using hprecision)]

/-- The qualifiers of a parameter as they are written. -/
def qualifierWords (isConst : Bool) (passing : Passing) : List (List Char) :=
  (if isConst then ["const".toList] else []) ++
  (match passing with
    | .input => []
    | .output => ["out".toList]
    | .inputOutput => ["inout".toList])

/-- The length in brackets. -/
def lengthText : Option UInt32 → List Char
  | some n => '[' :: (Nat.toDigits 10 n.toNat ++ [']'])
  | none => []

/-- The text of a parameter. -/
def glslText (p : Parameter) : List Char := (Declaration.glslParameter p).toList

/-- A parameter is written as words. -/
theorem glslText_eq (p : Parameter) : glslText p =
    (qualifierWords p.isConst p.passing ++ [p.type.name.toList]).flatMap (· ++ [' ']) ++
      (p.name.toList ++ lengthText p.count) := by
  obtain ⟨name, type, passing, isConst, count⟩ := p
  cases isConst <;> cases passing <;> cases count <;>
    simp [glslText, Declaration.glslParameter, qualifierWords, lengthText, ValueType.toList_toString,
      show ∀ s : String, toString s = s from fun _ => rfl]

/-- The qualifiers are taken as they are written. -/
theorem foldl_qualifierWords (isConst : Bool) (passing : Passing) :
    (qualifierWords isConst passing).foldl Qualified.take ⟨.input, false, []⟩ =
      ⟨passing, isConst, []⟩ := by
  cases isConst <;> cases passing <;> rfl

theorem qualifierWords_wordChars : ∀ (isConst : Bool) (passing : Passing),
    ∀ w ∈ qualifierWords isConst passing, w.all Name.isWordChar = true
  | true, .input | true, .output | true, .inputOutput
  | false, .input | false, .output | false, .inputOutput => by decide

theorem qualifierWords_words : ∀ (isConst : Bool) (passing : Passing),
    ∀ w ∈ qualifierWords isConst passing, Text.Solid w ∧ w ≠ [] ∧ '[' ∉ w := by
  intro isConst passing w hw
  have hword := qualifierWords_wordChars isConst passing w hw
  refine ⟨Text.Solid.of_wordChars hword, ?_, fun hm => ?_⟩
  · cases isConst <;> cases passing <;> simp [qualifierWords] at hw <;> grind
  · exact absurd (List.all_eq_true.1 hword _ hm) (by decide)

theorem joinBefore_append {as bs : List Char} (h : '[' ∉ as) (hb : bs.head? ≠ some '[') :
    joinBefore (as ++ bs) = as ++ joinBefore bs := by
  induction as with
  | nil => rfl
  | cons a as ih =>
    rw [List.cons_append, joinBefore.eq_2, ih fun hm => h (by simp [hm]), List.cons_append]
    intro ds _ e
    cases as with
    | nil => exact hb (by rw [← List.nil_append bs, e]; rfl)
    | cons b as => exact h (by simp [(List.cons.inj e).1])

theorem joinBefore_of_notMem {cs : List Char} (h : ' ' ∉ cs) : joinBefore cs = cs := by
  induction cs with
  | nil => rfl
  | cons c cs ih =>
    rw [joinBefore.eq_2, ih fun hm => h (by simp [hm])]
    rintro ds rfl
    simp at h

theorem joinBehind_append {as bs : List Char} (h : '[' ∉ as) :
    joinBehind (as ++ bs) = as ++ joinBehind bs := by
  induction as with
  | nil => rfl
  | cons a as ih =>
    rw [List.cons_append, joinBehind.eq_2, ih fun hm => h (by simp [hm]), List.cons_append]
    rintro ds rfl
    simp at h

theorem joinBehind_of_notMem {cs : List Char} (h : ' ' ∉ cs) : joinBehind cs = cs := by
  induction cs with
  | nil => rfl
  | cons c cs ih =>
    rw [joinBehind.eq_2, ih fun hm => h (by simp [hm])]
    intro ds _ e
    exact h (by simp [e])

/-- The words of a text whose last word alone may hold brackets. -/
theorem words_joined {ws : List (List Char)} {last : List Char}
    (h : ∀ w ∈ ws, Text.Solid w ∧ w ≠ [] ∧ '[' ∉ w) (hlast : Text.Solid last)
    (hfirst : last.head? ≠ some '[') (hne : last ≠ []) :
    Text.words (joinBehind (joinBefore (ws.flatMap (· ++ [' ']) ++ last))) = ws ++ [last] := by
  have hno : '[' ∉ ws.flatMap (· ++ [' ']) := by
    intro hm
    obtain ⟨w, hw, hm⟩ := List.mem_flatMap.1 hm
    exact (h w hw).2.2 (by simpa using hm)
  have hspace : ' ' ∉ last := fun hm => absurd (hlast _ hm) (by decide)
  rw [joinBefore_append hno hfirst, joinBefore_of_notMem hspace, joinBehind_append hno,
    joinBehind_of_notMem hspace]
  exact Text.words_flatMap (fun w hw => ⟨(h w hw).1, (h w hw).2.1⟩) ⟨hlast, hne⟩

/-- A blank in front of a parameter does not matter. -/
theorem words_joined_cons_blank (cs : List Char) :
    Text.words (joinBehind (joinBefore (' ' :: cs))) =
      Text.words (joinBehind (joinBefore cs)) := by
  match cs with
  | '[' :: ds => rw [joinBefore, joinBefore.eq_2 _ _ (by simp)]
  | [] => rfl
  | c :: ds =>
    by_cases hc : c = '['
    · subst hc
      rw [joinBefore, joinBefore.eq_2 _ _ (by simp)]
    · rw [joinBefore.eq_2 ' ' _ fun es _ e => hc (List.cons.inj e).1,
        joinBehind.eq_2 _ _ (by simp)]
      exact Text.words_cons_blank _ Text.isBlank_space

theorem dropClosing_concat {cs : List Char} (h : ']' ∉ cs) : dropClosing (cs ++ [']']) = cs := by
  have hself : cs.reverse.dropWhile (· == ']') = cs.reverse := by
    cases hcs : cs.reverse with
    | nil => rfl
    | cons c ds =>
      have hc : c ≠ ']' := by
        rintro rfl
        exact h (List.mem_reverse.1 (by rw [hcs]; simp))
      simp [hc]
  simp [dropClosing, hself]

/-- The name of a parameter and the length behind it come apart. -/
theorem arrayLength_append {name : List Char} (hname : name.all Name.isWordChar = true)
    (count : Option UInt32) : arrayLength (name ++ lengthText count) = .ok (name, count) := by
  have hno : ∀ c ∈ name, (c == '[') = false :=
    fun c hc => Text.ne_of_isWordChar (by decide) hname hc
  cases count with
  | none => simp [arrayLength, lengthText, Text.cutAt_eq_none_iff.2 hno]
  | some n =>
    have hcut : Text.cutAt (· == '[') (name ++ lengthText (some n)) =
        some (name, Nat.toDigits 10 n.toNat ++ [']']) := Text.cutAt_append _ hno rfl
    have hdrop : dropClosing (Nat.toDigits 10 n.toNat ++ [']']) = Nat.toDigits 10 n.toNat :=
      dropClosing_concat fun hm =>
        absurd (List.all_eq_true.1 (ValueType.digits_wordChars n.toNat) _ hm) (by decide)
    have htrim : Text.trim (Nat.toDigits 10 n.toNat) = Nat.toDigits 10 n.toNat :=
      (Text.Solid.of_wordChars (ValueType.digits_wordChars n.toNat)).trimmed
    simp only [arrayLength, hcut, hdrop, htrim, Text.readWord32?_toDigits]

theorem notMem_of_arrayLength {word stem : List Char} {count : Option UInt32}
    (h : arrayLength word = .ok (stem, count)) : '[' ∉ stem := by
  unfold arrayLength at h
  split at h
  · next hcut =>
    cases h
    exact fun hm => absurd (Text.cutAt_eq_none_iff.1 hcut _ hm) (by decide)
  · next front rest hcut =>
    split at h
    · cases h
      exact fun hm => absurd ((Text.cutAt_eq_some hcut).1 _ hm) (by decide)
    · cases h

section Parameter

variable {p : Parameter}

/-- The words of a parameter in front of its name. -/
theorem GlslWritable.words (h : GlslWritable p) :
    ∀ w ∈ qualifierWords p.isConst p.passing ++ [p.type.name.toList],
      Text.Solid w ∧ w ≠ [] ∧ '[' ∉ w := by
  obtain ⟨stem, hno, htype⟩ := h.type
  have hplain := isPlain_of_glslType hno htype
  intro w hw
  rcases List.mem_append.1 hw with hw | hw
  · exact qualifierWords_words _ _ w hw
  · rw [List.mem_singleton.1 hw]
    refine ⟨Text.Solid.of_wordChars hplain.word, hplain.nonempty, fun hm => ?_⟩
    exact absurd (List.all_eq_true.1 hplain.word _ hm) (by decide)

/-- The name of a parameter with its length is one word. -/
theorem GlslWritable.lastWord (h : GlslWritable p) :
    Text.Solid (p.name.toList ++ lengthText p.count) ∧
      p.name.toList ++ lengthText p.count ≠ [] ∧
      (p.name.toList ++ lengthText p.count).head? ≠ some '[' := by
  obtain ⟨hne, hword⟩ := isIdentifier_word h.name
  have hlength : Text.Solid (lengthText p.count) := by
    cases p.count with
    | none => intro c hc; cases hc
    | some n =>
      intro c hc
      simp only [lengthText, List.mem_cons, List.mem_append, List.not_mem_nil, or_false] at hc
      rcases hc with rfl | hc | rfl
      · decide
      · exact Text.Solid.of_wordChars (ValueType.digits_wordChars n.toNat) c hc
      · decide
  refine ⟨fun c hc => ?_, by simp [hne], fun hhead => ?_⟩
  · rcases List.mem_append.1 hc with hc | hc
    · exact Text.Solid.of_wordChars hword c hc
    · exact hlength c hc
  · rw [List.head?_append_of_ne_nil _ hne] at hhead
    exact absurd (List.all_eq_true.1 hword _ (List.mem_of_mem_head? hhead)) (by decide)

/-- No type is named like a qualifier. -/
theorem name_notMem_qualifiers {t : ValueType} (h : t.IsPlain) : t.name ∉ qualifiers := by
  have hnone : ∀ w ∈ qualifiers, ValueType.ofPlainName? w.toList = none := by decide
  intro hm
  have := hnone _ hm
  rw [h.reads] at this
  cases this

/-- A parameter reads back from its text. -/
theorem glslParameter_code (h : GlslWritable p) :
    glslParameter (glslText p) = .ok p := by
  obtain ⟨stem, hno, htype⟩ := h.type
  have hplain := isPlain_of_glslType hno htype
  obtain ⟨hne, hword⟩ := isIdentifier_word h.name
  obtain ⟨hsolid, hnonempty, hhead⟩ := h.lastWord
  have hwords := words_joined h.words hsolid hhead hnonempty
  have hlast : String.ofList (p.name.toList ++ lengthText p.count) ∉ qualifiers := by
    have hno : ∀ w ∈ qualifiers, '[' ∉ w.toList := by decide
    cases hc : p.count with
    | none => simpa [lengthText] using h.notQualifier
    | some n => exact fun hm => hno _ hm (by simp [lengthText])
  have htypeWord : arrayLength p.type.name.toList = .ok (p.type.name.toList, none) := by
    simpa [lengthText] using arrayLength_append hplain.word none
  have htypeName : glslType p.type.name = .ok p.type := (glslType_name htype).2
  have hfold : (qualifierWords p.isConst p.passing ++ [p.type.name.toList] ++
      [p.name.toList ++ lengthText p.count]).foldl Qualified.take ⟨.input, false, []⟩ =
      ⟨p.passing, p.isConst, [p.type.name.toList, p.name.toList ++ lengthText p.count]⟩ := by
    rw [List.foldl_append, List.foldl_append, foldl_qualifierWords]
    simp only [List.foldl_cons, List.foldl_nil]
    have htype : String.ofList p.type.name.toList ∉ qualifiers := by
      simpa using name_notMem_qualifiers hplain
    rw [Qualified.take_word ⟨p.passing, p.isConst, []⟩ htype, Qualified.take_word _ hlast]
    rfl
  simp only [glslParameter, glslText_eq, hwords, hfold, htypeWord,
    arrayLength_append hword, bind, Except.bind, String.ofList_toList, htypeName]
  simp [pure, Except.pure]

/-- The characters of a parameter. -/
theorem GlslWritable.chars (h : GlslWritable p) {c : Char}
    (hc : c ∈ glslText p) :
    Name.isWordChar c = true ∨ c = ' ' ∨ c = '[' ∨ c = ']' := by
  obtain ⟨stem, hno, htype⟩ := h.type
  have hplain := isPlain_of_glslType hno htype
  have hword := (isIdentifier_word h.name).2
  rw [glslText_eq] at hc
  simp only [List.flatMap_append, List.flatMap_cons, List.flatMap_nil, List.append_nil,
    List.mem_append, List.mem_flatMap, List.mem_singleton] at hc
  rcases hc with (⟨w, hw, hc | rfl⟩ | hc | rfl) | hc | hc
  · exact .inl (List.all_eq_true.1 (qualifierWords_wordChars _ _ w hw) c hc)
  · exact .inr (.inl rfl)
  · exact .inl (List.all_eq_true.1 hplain.word c hc)
  · exact .inr (.inl rfl)
  · exact .inl (List.all_eq_true.1 hword c hc)
  · cases hcount : p.count with
    | none => simp [hcount, lengthText] at hc
    | some n =>
      simp only [hcount, lengthText, List.mem_cons, List.mem_append, List.not_mem_nil,
        or_false] at hc
      rcases hc with rfl | hc | rfl
      · exact .inr (.inr (.inl rfl))
      · exact .inl (List.all_eq_true.1 (ValueType.digits_wordChars n.toNat) c hc)
      · exact .inr (.inr (.inr rfl))

/-- A character that stands in no parameter. -/
theorem GlslWritable.notMem (h : GlslWritable p) {c : Char}
    (hword : Name.isWordChar c = false) (hspace : c ≠ ' ') (hopen : c ≠ '[') (hclose : c ≠ ']') :
    c ∉ glslText p := by
  intro hc
  rcases h.chars hc with h | h | h | h
  · simp [hword] at h
  · exact hspace h
  · exact hopen h
  · exact hclose h

/-- Where a parameter starts and ends. -/
theorem GlslWritable.ends (h : GlslWritable p) :
    glslText p ≠ [] ∧ ' ' ∈ glslText p ∧
    (∀ c ∈ (glslText p).head?, Text.isBlank c = false) ∧
    ∀ c ∈ (glslText p).getLast?, Text.isBlank c = false := by
  obtain ⟨hsolid, hne, -⟩ := h.lastWord
  have hwords := h.words
  rw [glslText_eq]
  refine ⟨by simp, by simp, ?_, fun c hc => ?_⟩
  · cases hq : qualifierWords p.isConst p.passing ++ [p.type.name.toList] with
    | nil => simp at hq
    | cons w ws =>
      obtain ⟨hw, hwne, -⟩ := hwords w (by simp [hq])
      intro c hc
      rw [List.flatMap_cons, List.append_assoc, List.append_assoc,
        List.head?_append_of_ne_nil _ hwne] at hc
      exact hw c (List.mem_of_mem_head? hc)
  · rw [List.getLast?_append_of_ne_nil _ hne] at hc
    exact hsolid c (List.mem_of_getLast? hc)

end Parameter

theorem glslParameter_cons_blank {cs : List Char} {p : Parameter} (h : glslParameter cs = .ok p) :
    glslParameter (' ' :: cs) = .ok p := by
  unfold glslParameter at h ⊢
  rw [words_joined_cons_blank]
  dsimp only at h ⊢
  split at h
  · exact h
  · cases h

/-- The text of a parameter list. -/
def glslList (ps : List Parameter) : List Char :=
  [',', ' '].intercalate (ps.map glslText)

/-- A character that stands in no parameter list. -/
theorem notMem_glslList {ps : List Parameter} (h : ∀ p ∈ ps, GlslWritable p) {c : Char}
    (hword : Name.isWordChar c = false) (hspace : c ≠ ' ') (hopen : c ≠ '[') (hclose : c ≠ ']')
    (hcomma : c ≠ ',') : c ∉ glslList ps := by
  intro hc
  rcases Text.mem_of_mem_intercalate hc with rfl | rfl | ⟨i, hi, hc⟩
  · exact hcomma rfl
  · exact hspace rfl
  · obtain ⟨p, hp, rfl⟩ := List.mem_map.1 hi
    exact (h p hp).notMem hword hspace hopen hclose hc

/-- A parameter list reads back from its text. -/
theorem glslParameters_code {ps : List Parameter} (h : ∀ p ∈ ps, GlslWritable p) :
    glslParameters (glslList ps) = .ok ps := by
  cases ps with
  | nil => rfl
  | cons p ps =>
    have hmem : ∀ i ∈ glslText p :: ps.map glslText, ∃ q ∈ p :: ps, glslText q = i := by
      intro i hi
      rw [← List.map_cons] at hi
      exact List.mem_map.1 hi
    have htrim : Text.trim (glslList (p :: ps)) = glslList (p :: ps) := by
      refine Text.trimmed_intercalate (h p (by simp)).ends.2.2.1 fun i hi => ?_
      obtain ⟨q, hq, rfl⟩ := hmem i hi
      exact ⟨(h q hq).ends.1, (h q hq).ends.2.2.2⟩
    have hspace : ' ' ∈ glslList (p :: ps) := by
      have hp := (h p (by simp)).ends.2.1
      cases ps <;> simp [glslList, hp]
    have hsplit : Text.splitOn (· == ',') (glslList (p :: ps)) =
        glslText p :: (ps.map glslText).map (' ' :: ·) := by
      refine Text.splitOn_intercalate fun i hi => ?_
      obtain ⟨q, hq, rfl⟩ := hmem i hi
      exact (h q hq).notMem (by decide) (by decide) (by decide) (by decide)
    have hrest : ((ps.map glslText).map (' ' :: ·)).mapM glslParameter = .ok ps := by
      rw [List.map_map]
      have hread : ∀ q ∈ ps, glslParameter (((' ' :: ·) ∘ glslText) q) = .ok (id q) :=
        fun q hq => glslParameter_cons_blank (glslParameter_code (h q (by simp [hq])))
      simpa using mapM_map_ok hread
    have hne : glslList (p :: ps) ≠ ['v', 'o', 'i', 'd'] := by
      intro e
      rw [e] at hspace
      exact absurd hspace (by decide)
    have hempty : (glslList (p :: ps)).isEmpty = false := by
      rw [List.isEmpty_eq_false_iff]
      exact List.ne_nil_of_mem hspace
    simp only [glslParameters, htrim, hempty, hne, hsplit, List.mapM_cons, hrest,
      glslParameter_code (h p (by simp)), decide_false, Bool.or_false, Bool.false_eq_true, if_false]
    rfl

/-! ### Headers -/

/-- A word at the end of a text that is read back to front. -/
theorem lastWord?_reverse {word : List Char} (rest : List Glyph) (hsolid : Text.Solid word)
    (hne : word ≠ []) (hrest : ∀ g ∈ rest.head?, g.isBlank = true) :
    lastWord? ((visible word).reverse ++ rest) = some (word, rest) := by
  have hword : ∀ g ∈ (visible word).reverse, g.isBlank = false := by
    intro g hg
    obtain ⟨c, hc, rfl⟩ := List.mem_map.1 (List.mem_reverse.1 hg)
    exact hsolid c hc
  have hstart : ((visible word).reverse ++ rest).dropWhile Glyph.isBlank =
      (visible word).reverse ++ rest := by
    cases hback : (visible word).reverse with
    | nil => simp [visible, hne] at hback
    | cons g gs =>
      rw [List.cons_append, List.dropWhile_cons_of_neg]
      simp [hword g (by simp [hback])]
  have hshown : ∀ g ∈ (visible word).reverse, (!g.isBlank) = true :=
    fun g hg => by simp [hword g hg]
  have htake : ((visible word).reverse ++ rest).takeWhile (fun g => !g.isBlank) =
      (visible word).reverse := by
    rw [List.takeWhile_append_of_pos hshown]
    cases rest with
    | nil => simp
    | cons g gs => simp [hrest g (by simp)]
  have hdrop : ((visible word).reverse ++ rest).dropWhile (fun g => !g.isBlank) = rest := by
    rw [List.dropWhile_append_of_pos hshown]
    cases rest with
    | nil => simp
    | cons g gs => simp [hrest g (by simp)]
  unfold lastWord?
  rw [hstart]
  cases hall : (visible word).reverse ++ rest with
  | nil => simp [visible, hne] at hall
  | cons g gs =>
    dsimp only
    rw [← hall, htake, hdrop, List.reverse_reverse, blanked_visible]

theorem lastWord?_cons_blank {g : Glyph} (rest : List Glyph) (h : g.isBlank = true) :
    lastWord? (g :: rest) = lastWord? rest := by
  simp [lastWord?, h]

/-- A preamble that a GLSL function can have: it leaves no comment open, and it shows no
parenthesis. -/
structure Passable (preamble : List Char) : Prop where
  closed : Region.code.after preamble ≠ .blockComment
  noParenthesis : ∀ g ∈ glyphs preamble, g.shown ≠ '('

/-- What is written behind a preamble and a newline is code. -/
theorem Passable.glyphs_append {preamble : List Char} (h : Passable preamble) {cs : List Char}
    (hcs : Unmarked cs) :
    glyphs (preamble ++ '\n' :: cs) = glyphs preamble ++ ⟨'\n', false⟩ :: visible cs := by
  have hline : glyphsIn (Region.code.after preamble) ('\n' :: cs) =
      ⟨'\n', false⟩ :: glyphsIn .code cs := by
    cases hr : Region.code.after preamble with
    | code => exact glyphsIn.eq_4 _ _ (by simp) (by simp)
    | lineComment => rfl
    | blockComment => exact absurd hr h.closed
  rw [glyphs, glyphsIn_append _ _ _ (by decide) (by decide), hline]
  exact congrArg (_ ++ _ :: ·) (glyphs_of_unmarked hcs)

/-- The result type and the name are read whatever precedes them. -/
theorem glslHeader_words {before : List Glyph} {result name : List Char}
    (hbefore : ∀ g ∈ before.getLast?, g.isBlank = true) (hresult : Text.Solid result)
    (hne : result ≠ []) (hname : isIdentifier name = true) :
    ∃ preamble, glslHeader (before ++ visible (result ++ ' ' :: name)) =
      .ok (preamble, String.ofList result, String.ofList name) := by
  obtain ⟨hnonempty, hword⟩ := isIdentifier_word hname
  have hback : (before ++ visible (result ++ ' ' :: name)).reverse =
      (visible name).reverse ++ ⟨' ', false⟩ :: ((visible result).reverse ++ before.reverse) := by
    simp
  have hfirst := lastWord?_reverse (⟨' ', false⟩ :: ((visible result).reverse ++ before.reverse))
    (Text.Solid.of_wordChars hword) hnonempty (by simp; decide)
  have hsecond := lastWord?_reverse before.reverse hresult hne (by simpa using hbefore)
  simp only [glslHeader, hback, hfirst, lastWord?_cons_blank _ (show Glyph.isBlank ⟨' ', false⟩ = true
    by decide), hsecond, hname, if_true]
  exact ⟨_, rfl⟩

/-! ### Functions -/

/-- A GLSL function as the reader makes them, with identifiers for names and a body in which no
comment starts. -/
structure GlslFunction (f : Declaration) (preamble : String) : Prop where
  form : f.form = .glsl preamble
  preamble : Passable preamble.toList
  inputs : ∀ p ∈ f.inputs, GlslWritable p
  /-- The result type is what some word names. -/
  result : ∃ word, glslType word = .ok f.result
  body : IsBlock f.body.toList
  plainBody : Unmarked f.body.toList

theorem toList_code_glsl {f : Declaration} {preamble : String} (h : f.form = .glsl preamble)
    (name : String) : (f.code name).toList =
      (if preamble.isEmpty then [] else preamble.toList ++ ['\n']) ++
        (f.result.name.toList ++ ' ' :: name.toList ++ '(' :: (glslList f.inputs ++
          ')' :: ([' '] ++ f.body.toList))) := by
  have hlist : (", ".intercalate (f.inputs.map Declaration.glslParameter)).toList =
      glslList f.inputs := by
    rw [String.toList_intercalate, List.map_map]
    rfl
  simp only [Declaration.code, h]
  split <;> simp [hlist]

/-- What stands before the signature is read over. -/
theorem Passable.glyphs_before {preamble : String} (h : Passable preamble.toList)
    {cs : List Char} (hcs : Unmarked cs) :
    ∃ before, glyphs ((if preamble.isEmpty then [] else preamble.toList ++ ['\n']) ++ cs) =
        before ++ visible cs ∧ (∀ g ∈ before, (g.shown == '(') = false) ∧
      ∀ g ∈ before.getLast?, g.isBlank = true := by
  by_cases he : preamble.isEmpty
  · exact ⟨[], by simpa [he] using glyphs_of_unmarked hcs, by simp, by simp⟩
  · refine ⟨glyphs preamble.toList ++ [⟨'\n', false⟩], ?_, fun g hg => ?_, by simp; decide⟩
    · simpa [he] using h.glyphs_append hcs
    · rcases List.mem_append.1 hg with hg | hg
      · exact beq_false_of_ne (h.noParenthesis g hg)
      · rw [List.mem_singleton.1 hg]
        decide

/-- A GLSL function reads back from its text. -/
theorem readGlsl_code {f : Declaration} {preamble : String} (h : GlslFunction f preamble)
    {name : String} (hname : isIdentifier name.toList = true) :
    ∃ preamble', readGlsl (f.code name) =
      .ok ⟨name, f.inputs, f.result, .glsl preamble', f.body⟩ := by
  obtain ⟨word, hresult⟩ := h.result
  obtain ⟨hnamed, hread⟩ := glslType_name hresult
  obtain ⟨hnonempty, hword⟩ := isIdentifier_word hname
  have hunmarked : Unmarked (f.result.name.toList ++ ' ' :: name.toList ++ '(' ::
      (glslList f.inputs ++ ')' :: ([' '] ++ f.body.toList))) := by
    have hslash : '/' ∉ f.result.name.toList ++ ' ' :: name.toList ++ '(' ::
        (glslList f.inputs ++ [')', ' ']) := by
      have hresult : '/' ∉ f.result.name.toList :=
        hnamed.notMem (by decide) (by decide) (by decide)
      have hlist : '/' ∉ glslList f.inputs :=
        notMem_glslList h.inputs (by decide) (by decide) (by decide) (by decide) (by decide)
      have hname : '/' ∉ name.toList :=
        fun hm => absurd (List.all_eq_true.1 hword _ hm) (by decide)
      simp [hresult, hlist, hname]
    have hopens : ∀ b ∈ f.body.toList.head?, b ≠ '/' ∧ b ≠ '*' := by
      rw [h.body.opens]
      rintro _ ⟨⟩
      decide
    simpa using (Unmarked.of_notMem hslash).append h.plainBody fun _ => hopens
  obtain ⟨before, hglyphs, hno, hblank⟩ := h.preamble.glyphs_before hunmarked
  have hcut : beforeParameters? (glyphs (f.code name).toList) =
      some (before ++ visible (f.result.name.toList ++ ' ' :: name.toList),
        visible (glslList f.inputs ++ ')' :: ([' '] ++ f.body.toList))) := by
    rw [toList_code_glsl h.form, hglyphs, visible_append, visible_cons, ← List.append_assoc]
    refine Text.cutAt_append _ (fun g hg => ?_) rfl
    rcases List.mem_append.1 hg with hg | hg
    · exact hno g hg
    · obtain ⟨c, hc, rfl⟩ := List.mem_map.1 hg
      refine beq_false_of_ne ?_
      rintro rfl
      rcases List.mem_append.1 hc with hc | hc
      · exact hnamed.notMem (by decide) (by decide) (by decide) hc
      · rcases List.mem_cons.1 hc with hc | hc
        · exact absurd hc (by decide)
        · exact absurd (List.all_eq_true.1 hword _ hc) (by decide)
  obtain ⟨preamble', hheader⟩ := glslHeader_words hblank hnamed.solid hnamed.nonempty hname
  have hbalanced : Text.Balanced '(' ')' (glslList f.inputs) :=
    .of_notMem
      (notMem_glslList h.inputs (by decide) (by decide) (by decide) (by decide) (by decide))
      (notMem_glslList h.inputs (by decide) (by decide) (by decide) (by decide) (by decide))
  have hlist := parameterList_visible .glsl ([' '] ++ f.body.toList) hbalanced
  have hbody := body_visible (by decide : '\x7b' ∉ [' ']) h.body
  refine ⟨preamble', ?_⟩
  simp only [readGlsl, hcut, hheader, hlist, hbody, hread, blanked_visible,
    glslParameters_code h.inputs, String.ofList_toList, bind, Except.bind]
  rfl

/-! ### What the reader returns -/

/-- A character that is not blank is visible. -/
theorem Glyph.hidden_of_isBlank {g : Glyph} (h : g.isBlank = false) : g.hidden = false := by
  cases hh : g.hidden with
  | false => rfl
  | true =>
    by_cases hn : g.char = '\n'
    · rw [isBlank, shown, hh, hn] at h
      exact absurd h (by decide)
    · have hs : g.shown = ' ' := by simp [shown, hh, hn]
      rw [isBlank, hs] at h
      exact absurd h (by decide)

/-- In front of the last word, the text goes on with a character of the word. -/
theorem lastWord?_eq_some {back rest : List Glyph} {word : List Char}
    (h : lastWord? back = some (word, rest)) :
    ∃ front g, back = front ++ g :: rest ∧ g.isBlank = false := by
  unfold lastWord? at h
  split at h
  · cases h
  · next gs hne =>
    obtain ⟨-, rfl⟩ := Prod.mk.inj (Option.some.inj h)
    have hfirst : ∀ g ∈ (back.dropWhile Glyph.isBlank).head?, g.isBlank = false := by
      intro g hg
      have := List.head?_dropWhile_not Glyph.isBlank back
      rwa [Option.mem_def.1 hg] at this
    have htake : (back.dropWhile Glyph.isBlank).takeWhile (fun g => !g.isBlank) ≠ [] := by
      cases hback : back.dropWhile Glyph.isBlank with
      | nil => exact absurd hback hne
      | cons g gs => simp [hfirst g (by simp [hback])]
    obtain ⟨front, g, hfront⟩ := List.eq_nil_or_concat _ |>.resolve_left htake
    refine ⟨back.takeWhile Glyph.isBlank ++ front, g, ?_, ?_⟩
    · rw [List.append_assoc, ← List.singleton_append, ← List.append_assoc front,
        ← List.concat_eq_append, ← hfront, List.takeWhile_append_dropWhile,
        List.takeWhile_append_dropWhile]
    · have hmem : g ∈ (back.dropWhile Glyph.isBlank).takeWhile fun g => !g.isBlank := by
        rw [hfront]
        simp
      simpa using List.mem_takeWhile_imp hmem

/-- What stands in front of a visible character and shows no parenthesis is a preamble. -/
theorem Passable.of_front {source : List Char} {front back : List Glyph} {g : Glyph}
    (h : glyphs source = front ++ g :: back) (hg : g.hidden = false)
    (hno : ∀ g ∈ front, g.shown ≠ '(') : Passable (written front) := by
  obtain ⟨hmarks, hafter⟩ := glyphsIn_front h hg
  exact ⟨hafter, by rwa [glyphs, hmarks]⟩

theorem Passable.tail {c : Char} {cs : List Char} (h : Passable (c :: cs))
    (hc : Text.isBlank c = true) : Passable cs := by
  have hslash : c ≠ '/' := by rintro rfl; exact absurd hc (by decide)
  obtain ⟨hclosed, hno⟩ := h
  rw [Region.after.eq_4 _ _ (fun _ e => absurd e hslash) (fun _ e => absurd e hslash)] at hclosed
  rw [glyphs, glyphsIn.eq_4 _ _ (fun _ e => absurd e hslash) (fun _ e => absurd e hslash)] at hno
  exact ⟨hclosed, fun g hg => hno g (List.mem_cons_of_mem _ hg)⟩

theorem Passable.trim {cs : List Char} (h : Passable cs) : Passable (Text.trim cs) := by
  have hleft : Passable (Text.trimLeft cs) := by
    induction cs with
    | nil => exact h
    | cons c cs ih =>
      by_cases hc : Text.isBlank c = true
      · simpa [Text.trimLeft, hc] using ih (h.tail hc)
      · simpa [Text.trimLeft, hc] using h
  obtain ⟨bs, hbs, hblank⟩ := Text.trimRight_append_blanks (Text.trimLeft cs)
  cases bs with
  | nil =>
    rw [List.append_nil] at hbs
    rwa [Text.trim, ← hbs]
  | cons b bs =>
    have hb : b ≠ '/' ∧ b ≠ '*' := by
      constructor <;> rintro rfl <;> exact absurd (hblank _ (.head _)) (by decide)
    obtain ⟨hclosed, hno⟩ := hleft
    rw [hbs] at hclosed hno
    rw [Region.after_append _ _ _ hb.1 hb.2] at hclosed
    rw [glyphs, glyphsIn_append _ _ _ hb.1 hb.2] at hno
    refine ⟨fun e => ?_, fun g hg => hno g (List.mem_append_left _ hg)⟩
    rw [Text.trim] at e
    rw [e, Region.after_blanks hblank] at hclosed
    exact hclosed rfl

/-- The preamble in front of a header. -/
theorem passable_of_glslHeader {source : List Char} {header rest : List Glyph} {g : Glyph}
    {preamble result name : String} (hsource : glyphs source = header ++ g :: rest)
    (hno : ∀ g ∈ header, g.shown ≠ '(') (h : glslHeader header = .ok (preamble, result, name)) :
    Passable preamble.toList := by
  -- what precedes a word of the header is in front of a visible character
  have hfront : ∀ {back rest word}, lastWord? back = some (word, rest) →
      (∃ front, header.reverse = front ++ back) → Passable (written rest.reverse) := by
    rintro back rest word hword ⟨front, hback⟩
    obtain ⟨front', g', rfl, hg'⟩ := lastWord?_eq_some hword
    have hheader : header = rest.reverse ++ g' :: (front'.reverse ++ front.reverse) := by
      rw [← List.reverse_reverse header, hback]
      simp
    rw [hheader] at hsource hno
    rw [List.append_assoc] at hsource
    exact .of_front hsource (Glyph.hidden_of_isBlank hg') fun g hg =>
      hno g (List.mem_append_left _ hg)
  unfold glslHeader at h
  split at h
  · cases h
  · next name rest₁ hfirst =>
    split at h
    · cases h
    · next result rest₂ hsecond =>
      split at h
      · cases h
        rw [String.toList_ofList]
        refine Passable.trim ?_
        obtain ⟨front₁, g₁, hback₁, -⟩ := lastWord?_eq_some hfirst
        obtain ⟨front₂, g₂, hback₂, -⟩ := lastWord?_eq_some hsecond
        unfold dropPrecision
        split
        · next hthird =>
          split
          · exact hfront hthird ⟨front₁ ++ g₁ :: (front₂ ++ [g₂]), by simp [hback₁, hback₂]⟩
          · exact hfront hsecond ⟨front₁ ++ [g₁], by simp [hback₁]⟩
        · exact hfront hsecond ⟨front₁ ++ [g₁], by simp [hback₁]⟩
      · cases h

/-- The types of the parameters that were read. -/
theorem type_of_glslParameters {text : List Char} {ps : List Parameter}
    (h : glslParameters text = .ok ps) {p : Parameter} (hp : p ∈ ps) :
    ∃ stem : List Char, '[' ∉ stem ∧ glslType (String.ofList stem) = .ok p.type := by
  have key : ∀ {text p}, glslParameter text = .ok p →
      ∃ stem : List Char, '[' ∉ stem ∧ glslType (String.ofList stem) = .ok p.type := by
    intro text p h
    unfold glslParameter at h
    dsimp only at h
    split at h
    · next type name _ =>
      obtain ⟨⟨stem, typeCount⟩, hstem, h⟩ := bind_ok h
      obtain ⟨⟨name', nameCount⟩, -, h⟩ := bind_ok h
      obtain ⟨t, ht, h⟩ := bind_ok h
      cases h
      exact ⟨stem, notMem_of_arrayLength hstem, ht⟩
    · cases h
  unfold glslParameters at h
  dsimp only at h
  split at h
  · cases h
    cases hp
  · obtain ⟨piece, -, hpiece⟩ := mem_of_mapM_ok h hp
    exact key hpiece

/-- The reader returns types that words name, and preambles that can be written again. -/
theorem readGlsl_eq_ok {source : String} {f : Declaration} (h : readGlsl source = .ok f) :
    (∃ preamble, f.form = .glsl preamble ∧ Passable preamble.toList) ∧
    (∃ word, glslType word = .ok f.result) ∧
    ∀ p ∈ f.inputs, ∃ stem : List Char, '[' ∉ stem ∧ glslType (String.ofList stem) = .ok p.type := by
  unfold readGlsl at h
  split at h
  · cases h
  · next header rest hcut =>
    obtain ⟨⟨preamble, result, name⟩, hheader, h⟩ := bind_ok h
    obtain ⟨type, htype, h⟩ := bind_ok h
    obtain ⟨⟨inside, after⟩, -, h⟩ := bind_ok h
    obtain ⟨inputs, hinputs, h⟩ := bind_ok h
    obtain ⟨⟨between, text⟩, -, h⟩ := bind_ok h
    cases h
    obtain ⟨hno, g, hg, hsource⟩ := Text.cutAt_eq_some hcut
    have passable : Passable preamble.toList :=
      passable_of_glslHeader hsource (fun g hg => ne_of_beq_false (hno g hg)) hheader
    exact ⟨⟨preamble, rfl, passable⟩, ⟨result, htype⟩, fun p hp => type_of_glslParameters hinputs hp⟩

end Native

end ShaderGraph
