import ShaderGraph.Artifact.Json
import ShaderGraph.Document.Options
import ShaderGraph.Proofs.GlslText
import ShaderGraph.Proofs.Tables
import ShaderGraph.Proofs.VariablesBuild

/-!
# Names of types

An array type is told by its `atom`, what it is made of in the end, and by its `lengths`, the
outermost first (`ofLengths_atom`). Its name shows them the other way round: the name of the atom
and then each length in brackets, the innermost first (`toList_name`).

* `readArray?` reads such a text, the leftmost length as the outermost. On a name it finds the atom
  and the lengths in the wrong order (`readArray?_name`), but loses nothing, so that types without
  structs have different names (`name_inj`).
* `ofName?` looks for the first bracket only. It reads the name of a type without structs back if and
  only if no array in it holds arrays (`ofName?_name_eq`).
* `types_read_back` says what this means for types that were written into records and settings.

In GLSL the leftmost of several lengths in brackets is the outermost: `T[a][b]` is an array of `a`
elements of type `T[b]`. `readGlsl?` reads a type by this rule.

* The backend writes the innermost length first. Its text denotes the arrays of the same atom with
  the lengths in the other order (`readGlsl?_spelling`), which is the type itself if and only if the
  lengths are the same from both ends.
* A constructor is written with the text of its type. The type that this text denotes has as many
  elements as the constructor has arguments, unless the elements are arrays; then it has as many as
  the innermost of these (`buildArray_text`).
* `glsl_array_types` says both.
-/

namespace ShaderGraph

namespace ValueType

/-! ### Atoms and lengths -/

/-- What nested arrays are made of in the end. -/
def atom : ValueType → ValueType
  | .array element _ => element.atom
  | t => t

/-- The lengths of nested arrays, the outermost first. -/
def lengths : ValueType → List UInt32
  | .array element count => count :: element.lengths
  | _ => []

/-- The arrays of the given lengths, the outermost first. -/
def ofLengths (t : ValueType) (lengths : List UInt32) : ValueType :=
  lengths.foldr (fun count element => .array element count) t

@[simp] theorem ofLengths_nil (t : ValueType) : t.ofLengths [] = t := rfl

@[simp] theorem ofLengths_cons (t : ValueType) (n : UInt32) (ns : List UInt32) :
    t.ofLengths (n :: ns) = .array (t.ofLengths ns) n := rfl

/-- A type is told by its atom and its lengths. -/
@[simp] theorem ofLengths_atom (t : ValueType) : t.atom.ofLengths t.lengths = t := by
  induction t with
  | array element count ih => simp [atom, lengths, ih]
  | _ => rfl

/-- An atom is no array. -/
@[simp] theorem lengths_atom (t : ValueType) : t.atom.lengths = [] := by
  induction t with
  | array element count ih => exact ih
  | _ => rfl

theorem atom_of_lengths {t : ValueType} (h : t.lengths = []) : t.atom = t := by
  cases t with
  | array element count => cases h
  | _ => rfl

@[simp] theorem lengths_ofLengths (t : ValueType) (ns : List UInt32) :
    (t.ofLengths ns).lengths = ns ++ t.lengths := by
  induction ns with
  | nil => rfl
  | cons n ns ih => simp [lengths, ih]

@[simp] theorem atom_ofLengths (t : ValueType) (ns : List UInt32) :
    (t.ofLengths ns).atom = t.atom := by
  induction ns with
  | nil => rfl
  | cons n ns ih => simpa [atom] using ih

/-- An atom without a struct has a name of one word. -/
theorem isPlain_atom {t : ValueType} (h : t.heldStruct? = none) : t.atom.IsPlain := by
  induction t with
  | array element count ih => exact ih h
  | struct name => cases h
  | scalar k => cases k <;> decide +kernel
  | vector k w => cases k <;> cases w <;> decide +kernel
  | matrix w => cases w <;> decide +kernel
  | void | texture => decide +kernel

/-- A type made of scalars, vectors or matrices, in arrays whose lengths are known. -/
structure IsSized (t : ValueType) : Prop where
  atom : t.atom.scalarKind.isSome = true
  lengths : ∀ n ∈ t.lengths, n ≠ 0

theorem IsSized.array {e : ValueType} {n : UInt32} (h : e.IsSized) (hn : n ≠ 0) :
    (ValueType.array e n).IsSized :=
  ⟨h.atom, List.forall_mem_cons.2 ⟨hn, h.lengths⟩⟩

theorem IsSized.element {e : ValueType} {n : UInt32} (h : (ValueType.array e n).IsSized) :
    e.IsSized :=
  ⟨h.atom, fun m hm => h.lengths m (List.mem_cons_of_mem _ hm)⟩

/-! ### Lengths in brackets -/

/-- Lengths in brackets, from left to right. -/
def bracketed (ns : List UInt32) : List Char :=
  ns.flatMap fun n => '[' :: (Nat.toDigits 10 n.toNat ++ [']'])

theorem bracketed_cons (n : UInt32) (ns : List UInt32) :
    bracketed (n :: ns) = '[' :: (Nat.toDigits 10 n.toNat ++ (']' :: bracketed ns)) := by
  simp [bracketed]

theorem bracketed_concat (ns : List UInt32) (n : UInt32) :
    bracketed (ns ++ [n]) = bracketed ns ++ '[' :: (Nat.toDigits 10 n.toNat ++ [']']) := by
  simp [bracketed]

/-- The name of a type shows the innermost length first. -/
theorem toList_name (t : ValueType) :
    t.name.toList = t.atom.name.toList ++ bracketed t.lengths.reverse := by
  induction t with
  | array element count ih =>
    rw [name_array, ih, lengths, List.reverse_cons, bracketed_concat, List.append_assoc]
    rfl
  | _ => exact (List.append_nil _).symm

/-- A number is written without brackets. -/
theorem notMem_digits (n : UInt32) {c : Char} (h : Name.isWordChar c = false) :
    c ∉ Nat.toDigits 10 n.toNat := by
  intro hm
  have := List.all_eq_true.1 (digits_wordChars n.toNat) _ hm
  rw [h] at this
  cases this

/-- A length in front of its closing bracket. -/
def readLength? (cs : List Char) : Option UInt32 := (Text.dropBack? [']'] cs).bind Text.readWord32?

/-- A word that `plain` reads, and behind it lengths in brackets, of which the leftmost is the
outermost. -/
def readArray? (plain : List Char → Option ValueType) (cs : List Char) : Option ValueType :=
  match Text.splitOn (· == '[') cs with
  | [] => none
  | word :: pieces =>
    match plain word, pieces.mapM readLength? with
    | some t, some lengths => some (t.ofLengths lengths)
    | _, _ => none

theorem splitOn_bracketed (ns : List UInt32) {word : List Char} (h : '[' ∉ word) :
    Text.splitOn (· == '[') (word ++ bracketed ns) =
      word :: ns.map fun n => Nat.toDigits 10 n.toNat ++ [']'] := by
  have free : ∀ {cs : List Char}, '[' ∉ cs → ∀ c ∈ cs, (c == '[') = false := by
    rintro cs hcs c hc
    refine beq_false_of_ne ?_
    rintro rfl
    exact hcs hc
  induction ns generalizing word with
  | nil =>
    rw [show bracketed [] = [] from rfl, List.append_nil]
    exact Text.splitOn_eq_singleton (free h)
  | cons n ns ih =>
    have hdigits : '[' ∉ Nat.toDigits 10 n.toNat ++ [']'] := by
      simpa using notMem_digits n (by decide)
    rw [bracketed_cons, Text.splitOn_append _ (free h) rfl, ← List.singleton_append (x := ']'),
      ← List.append_assoc, ih hdigits]
    rfl

/-- Lengths behind a word are read, the leftmost as the outermost. -/
theorem readArray?_bracketed {plain : List Char → Option ValueType} {word : List Char}
    {t : ValueType} (ns : List UInt32) (hword : '[' ∉ word) (h : plain word = some t) :
    readArray? plain (word ++ bracketed ns) = some (t.ofLengths ns) := by
  have hlength : ∀ n : UInt32, readLength? (Nat.toDigits 10 n.toNat ++ [']']) = some n := by
    intro n
    rw [readLength?, Text.dropBack?_append, Option.bind_some, Text.readWord32?_toDigits]
  have hlengths : (ns.map fun n => Nat.toDigits 10 n.toNat ++ [']']).mapM readLength? = some ns := by
    induction ns with
    | nil => rfl
    | cons n ns ih => simp [hlength, ih]
  simp only [readArray?, splitOn_bracketed ns hword, h, hlengths]

theorem IsPlain.noBracket {t : ValueType} (h : t.IsPlain) : '[' ∉ t.name.toList :=
  fun hm => absurd (List.all_eq_true.1 h.word _ hm) (by decide)

/-- Read with the leftmost length as the outermost, the name of a type gives its lengths in the
other order. -/
theorem readArray?_name {t : ValueType} (h : t.heldStruct? = none) :
    readArray? ofPlainName? t.name.toList = some (t.atom.ofLengths t.lengths.reverse) := by
  have hplain := isPlain_atom h
  rw [toList_name]
  exact readArray?_bracketed _ hplain.noBracket hplain.reads

/-- Types without structs have different names. -/
theorem name_inj {t u : ValueType} (ht : t.heldStruct? = none) (hu : u.heldStruct? = none)
    (h : t.name = u.name) : t = u := by
  have hread := readArray?_name ht
  rw [h, readArray?_name hu, Option.some.injEq] at hread
  have hlengths := congrArg lengths hread
  have hatom := congrArg atom hread
  simp only [lengths_ofLengths, lengths_atom, List.append_nil, List.reverse_inj] at hlengths
  simp only [atom_ofLengths, atom_of_lengths (lengths_atom _)] at hatom
  rw [← ofLengths_atom t, ← ofLengths_atom u, hlengths, hatom]

/-! ### Names that read back -/

/-- No array in the type holds arrays. -/
def IsFlat (t : ValueType) : Prop := t.lengths.length ≤ 1

instance (t : ValueType) : Decidable t.IsFlat := inferInstanceAs (Decidable (_ ≤ 1))

/-- A type without structs in which no array holds arrays has a name. -/
theorem isNamed_of_isFlat {t : ValueType} (h : t.heldStruct? = none) (hflat : t.IsFlat) :
    t.IsNamed := by
  have hatom := isPlain_atom h
  cases t with
  | array element count =>
    have hnone : element.lengths = [] := by
      have : element.lengths.length + 1 ≤ 1 := hflat
      exact List.eq_nil_of_length_eq_zero (by omega)
    rw [show (ValueType.array element count).atom = element from atom_of_lengths hnone] at hatom
    exact .array hatom count
  | _ => exact .plain hatom

/-- The name of a type without structs holds no blank. -/
theorem solid_name {t : ValueType} (h : t.heldStruct? = none) : Text.Solid t.name.toList := by
  have hword := (isPlain_atom h).word
  intro c hc
  rw [toList_name, bracketed, List.mem_append, List.mem_flatMap] at hc
  rcases hc with hc | ⟨n, -, hc⟩
  · exact Text.isBlank_of_isWordChar (List.all_eq_true.1 hword c hc)
  · simp only [List.mem_cons, List.mem_append, List.not_mem_nil, or_false] at hc
    rcases hc with rfl | hc | rfl
    · decide
    · exact Text.isBlank_of_isWordChar (List.all_eq_true.1 (digits_wordChars n.toNat) c hc)
    · decide

/-- What stands behind the first bracket in the name of an array of arrays is no length. -/
theorem ofName?_of_not_isFlat {t : ValueType} (h : t.heldStruct? = none) (hflat : ¬t.IsFlat) :
    ofName? t.name = none := by
  have hplain := isPlain_atom h
  obtain ⟨n, ns, last, hns⟩ : ∃ n ns last, t.lengths.reverse = n :: (ns ++ [last]) := by
    have hlength : 1 < t.lengths.reverse.length := by
      rw [List.length_reverse]
      exact Nat.lt_of_not_le hflat
    obtain ⟨n, rest, hrest⟩ := List.exists_cons_of_length_pos (Nat.zero_lt_of_lt hlength)
    rcases List.eq_nil_or_concat rest with rfl | ⟨ns, last, rfl⟩
    · rw [hrest] at hlength
      exact absurd hlength (Nat.lt_irrefl 1)
    · exact ⟨n, ns, last, by rw [hrest, List.concat_eq_append]⟩
  -- between the first opening and the last closing bracket stands another closing one
  let inside := Nat.toDigits 10 n.toNat ++ ']' :: (bracketed ns ++ '[' :: Nat.toDigits 10 last.toNat)
  have hname : t.name.toList = t.atom.name.toList ++ '[' :: (inside ++ [']']) := by
    rw [toList_name, hns, bracketed_cons, bracketed_concat]
    simp [inside]
  have hsolid := solid_name h
  have hcut : Text.cutAt (· == '[') t.name.toList = some (t.atom.name.toList, inside ++ [']']) := by
    rw [hname]
    exact Text.cutAt_append _ (fun c hc => Text.ne_of_isWordChar (by decide) hplain.word hc) rfl
  have htrim : Text.trim inside = inside :=
    Text.Solid.trimmed fun c hc => hsolid c (by rw [hname]; simp [hc])
  have hclosing : ']' ∈ inside := by simp [inside]
  have hread : Text.readWord32? inside = none :=
    Text.readWord32?_of_mem hclosing (by decide) (by decide)
  simp only [ofName?, show Text.trim t.name.toList = _ from hsolid.trimmed, hcut,
    Text.dropBack?_append, htrim, hread]

/-- The name of a type without structs reads back if and only if no array in it holds arrays. -/
theorem ofName?_name_eq {t : ValueType} (h : t.heldStruct? = none) :
    ofName? t.name = if t.IsFlat then some t else none := by
  split
  · next hflat => exact (isNamed_of_isFlat h hflat).ofName?_name
  · next hflat => exact ofName?_of_not_isFlat h hflat

end ValueType

/-! ### Types in records and settings -/

theorem Json.asNatBelow?_nat {bound n : Nat} (h : n < bound) :
    Json.asNatBelow? bound (.nat n) = some n :=
  if_pos ⟨Int.natCast_nonneg n, Int.ofNat_lt.2 h⟩

theorem Json.asWord?_nat (n : UInt32) : Json.asWord? (.nat n.toNat) = some n := by
  rw [Json.asWord?, Json.asNatBelow?_nat n.toNat_lt_size, Option.map_some, UInt32.ofNat_toNat]

theorem Json.asList?_ofList {α : Type} {f : α → Json} {read : Json → Option α}
    (h : ∀ a, read (f a) = some a) (xs : List α) : (Json.ofList f xs).asList? read = some xs := by
  show (xs.map f).mapM read = some xs
  induction xs with
  | nil => rfl
  | cons x xs ih => simp [h, ih]

/-- Entries with different keys stay as they are. -/
theorem OrderedMap.ofList_of_nodup {κ α : Type} [DecidableEq κ] {entries : List (κ × α)}
    (h : (entries.map Prod.fst).Nodup) : OrderedMap.ofList entries = ⟨entries⟩ := by
  have key : ∀ (front back : List (κ × α)), ((front ++ back).map Prod.fst).Nodup →
      back.foldl (fun m e => m.put e.1 e.2) ⟨front⟩ = (⟨front ++ back⟩ : OrderedMap κ α) := by
    intro front back
    induction back generalizing front with
    | nil => intro _; simp
    | cons e back ih =>
      intro hnodup
      have hnew : e.1 ∉ front.map Prod.fst := by
        rw [List.map_append, List.map_cons, List.nodup_append] at hnodup
        exact fun hm => hnodup.2.2 _ hm e.1 (by simp) rfl
      have hput : (⟨front⟩ : OrderedMap κ α).put e.1 e.2 = ⟨front ++ [e]⟩ :=
        congrArg OrderedMap.mk (putIn_of_notMem hnew)
      rw [List.foldl_cons, hput, ih _ (by simpa using hnodup)]
      simp
  exact key [] entries (by simpa using h)

namespace BuildOptions

/-- A type that was written into a record. -/
theorem readType?_typeJson (t : ValueType) : readType? (typeJson t) = ValueType.ofName? t.name := rfl

theorem readWorkgroup?_ofList (w : WorkgroupSize) :
    readWorkgroup? (Json.ofList (fun n : UInt32 => .nat n.toNat) [w.x, w.y, w.z]) = some w := by
  rw [readWorkgroup?, Json.asList?_ofList Json.asWord?_nat]

theorem asRecord?_toJson (o : BuildOptions) :
    o.toJson.asRecord? fieldNames 0 = some ⟨[("dialect", .string o.dialect.name),
     ("attributes", .object (o.attributes.entries.map fun a => (a.1, .string a.2.name))),
     ("workgroupSize",
       Json.ofList (fun n => .nat n.toNat) [o.workgroup.x, o.workgroup.y, o.workgroup.z]),
     ("maxSetupDepth", .nat o.maxDepth),
     ("validate", .bool o.validate)]⟩ := by
  simp [toJson, Json.asRecord?, fieldNames]

/-- Settings that a document can hold: the names of the attributes are different, and the number
fits a word. -/
structure Recordable (o : BuildOptions) : Prop where
  distinct : o.attributes.keys.Nodup
  depth : o.maxDepth < UInt64.size

theorem fieldOr?_of_lookup {α : Type} {r : Json.Record} {name : String} {v : Json} (default : α)
    (read : Json → Option α) (h : r.fields.lookup name = some v) :
    r.fieldOr? name default read = read v := by
  rw [Json.Record.fieldOr?, h]

/-- Settings read back as what is read of the types of their attributes. -/
theorem ofJson?_toJson {o : BuildOptions} (h : o.Recordable) :
    ofJson? o.toJson = (o.attributes.entries.mapM fun a =>
      (ValueType.ofName? a.2.name).map fun t => (a.1, t)).map fun entries =>
        { o with attributes := .ofList entries } := by
  have hdialect : Json.asChoice? Dialect.ofName? (.string o.dialect.name) = some o.dialect := by
    cases o.dialect <;> rfl
  have hattributes : Json.asMap? readType?
      (.object (o.attributes.entries.map fun a => (a.1, .string a.2.name))) =
      (o.attributes.entries.mapM fun a => (ValueType.ofName? a.2.name).map fun t => (a.1, t)).map
        .ofList := by
    rw [Json.asMap?, List.mapM_map]
    rfl
  rw [ofJson?, asRecord?_toJson]
  simp only [Option.bind_eq_bind, Option.bind_some]
  rw [fieldOr?_of_lookup _ _ rfl, hdialect, fieldOr?_of_lookup _ _ rfl, hattributes,
    fieldOr?_of_lookup _ _ rfl, readWorkgroup?_ofList, fieldOr?_of_lookup _ _ rfl,
    Json.asNatBelow?_nat h.depth, fieldOr?_of_lookup _ _ rfl]
  cases o.attributes.entries.mapM fun a => (ValueType.ofName? a.2.name).map fun t => (a.1, t) <;> rfl

end BuildOptions

/-- The entries read back if and only if no array in a type holds arrays. -/
theorem mapM_ofName?_name {entries : List (String × ValueType)}
    (h : ∀ a ∈ entries, a.2.heldStruct? = none) :
    (entries.mapM fun a => (ValueType.ofName? a.2.name).map fun t => (a.1, t)) =
      if ∀ a ∈ entries, a.2.IsFlat then some entries else none := by
  induction entries with
  | nil => rfl
  | cons a entries ih =>
    have hrest := ih fun b hb => h b (List.mem_cons_of_mem _ hb)
    rw [List.mapM_cons, hrest, ValueType.ofName?_name_eq (h a (by simp))]
    have hcons : (∀ b ∈ a :: entries, b.2.IsFlat) ↔ a.2.IsFlat ∧ ∀ b ∈ entries, b.2.IsFlat :=
      List.forall_mem_cons
    by_cases ha : a.2.IsFlat
    · rw [if_pos ha]
      by_cases hall : ∀ b ∈ entries, b.2.IsFlat
      · rw [if_pos hall, if_pos (hcons.2 ⟨ha, hall⟩)]
        rfl
      · rw [if_neg hall, if_neg fun e => hall (hcons.1 e).2]
        rfl
    · rw [if_neg ha, if_neg fun e => ha (hcons.1 e).1]
      rfl

/-- Names of types without structs, and settings that hold such types, read back if and only if no
array holds arrays; what does not read back as itself is refused. The names are all different. -/
theorem types_read_back (t : ValueType) (o : BuildOptions) :
    (t.heldStruct? = none →
      ValueType.ofName? t.name = (if t.IsFlat then some t else none) ∧
      BuildOptions.readType? (typeJson t) = (if t.IsFlat then some t else none) ∧
      ∀ u : ValueType, u.heldStruct? = none → u.name = t.name → u = t) ∧
    (o.Recordable → (∀ a ∈ o.attributes.entries, a.2.heldStruct? = none) →
      BuildOptions.ofJson? o.toJson =
        if ∀ a ∈ o.attributes.entries, a.2.IsFlat then some o else none) := by
  refine ⟨fun ht => ?_, fun ho hplain => ?_⟩
  · have hname := ValueType.ofName?_name_eq ht
    exact ⟨hname, (BuildOptions.readType?_typeJson t).trans hname,
      fun u hu => ValueType.name_inj hu ht⟩
  · rw [BuildOptions.ofJson?_toJson ho, mapM_ofName?_name hplain]
    split
    · have hattributes : OrderedMap.ofList o.attributes.entries = o.attributes :=
        OrderedMap.ofList_of_nodup ho.distinct
      rw [Option.map_some, hattributes]
    · rfl

/-- An attribute of type `float[4]` is read back, one whose type is an array of arrays is not. -/
theorem weights_read_back :
    BuildOptions.ofJson? { BuildOptions.standard with
        attributes := ⟨[("weights", .array .float 4)]⟩ }.toJson =
      some { BuildOptions.standard with attributes := ⟨[("weights", .array .float 4)]⟩ } ∧
    BuildOptions.ofJson? { BuildOptions.standard with
        attributes := ⟨[("weights", .array (.array .float 2) 3)]⟩ }.toJson = none :=
  ⟨(types_read_back (.array .float 4) _).2 ⟨by decide, by decide⟩ (by decide),
    (types_read_back (.array .float 4) _).2 ⟨by decide, by decide⟩ (by decide)⟩

/-- The name of an array of arrays is refused. -/
theorem ValueType.nested_unread :
    (array (array float 2) 3).heldStruct? = none ∧ (array (array float 2) 3).name = "float[2][3]" ∧
      ofName? "float[2][3]" = none := by
  decide

/-! ## Array types in GLSL -/

namespace ValueType

/-! ### Reading GLSL types -/

/-- The words of GLSL for scalars, vectors and square matrices of floats. -/
def glslWords : List (String × ValueType) :=
  [("bool", .bool), ("int", .int), ("uint", .uint), ("float", .float),
   ("vec2", .vec2), ("vec3", .vec3), ("vec4", .vec4),
   ("ivec2", .vector .int .two), ("ivec3", .vector .int .three), ("ivec4", .vector .int .four),
   ("uvec2", .vector .uint .two), ("uvec3", .vector .uint .three), ("uvec4", .vector .uint .four),
   ("bvec2", .vector .bool .two), ("bvec3", .vector .bool .three), ("bvec4", .vector .bool .four),
   ("mat2", .matrix .two), ("mat3", .matrix .three), ("mat4", .matrix .four)]

/-- The type that a text denotes in GLSL. -/
def readGlsl? (cs : List Char) : Option ValueType :=
  readArray? (fun word => glslWords.lookup (String.ofList word)) cs

/-- A type that is no array is written in GLSL by its name. -/
theorem lookup_glslWords {t : ValueType} (h : t.scalarKind.isSome = true) :
    glslWords.lookup (Dialect.glslSpelling t) = some t ∧ '[' ∉ (Dialect.glslSpelling t).toList := by
  cases t with
  | scalar k => cases k <;> decide
  | vector k w => cases k <;> cases w <;> decide
  | matrix w => cases w <;> decide
  | _ => cases h

/-- The backend writes the innermost length first. -/
theorem toList_glslSpelling (t : ValueType) : (Dialect.glslSpelling t).toList =
    (Dialect.glslSpelling t.atom).toList ++ bracketed t.lengths.reverse := by
  induction t with
  | array element count ih =>
    have hcons : (Dialect.glslSpelling (.array element count)).toList =
        (Dialect.glslSpelling element).toList ++ '[' :: (Nat.toDigits 10 count.toNat ++ [']']) := by
      simp [Dialect.glslSpelling, show ∀ s : String, toString s = s from fun _ => rfl,
        Nat.toList_repr]
    rw [hcons, ih, lengths, List.reverse_cons, bracketed_concat, List.append_assoc]
    rfl
  | _ => exact (List.append_nil _).symm

/-- What the backend writes denotes the lengths in the other order. -/
theorem readGlsl?_spelling {t : ValueType} (h : t.atom.scalarKind.isSome = true) :
    readGlsl? (Dialect.glslSpelling t).toList = some (t.atom.ofLengths t.lengths.reverse) := by
  obtain ⟨hword, hno⟩ := lookup_glslWords h
  rw [toList_glslSpelling]
  refine readArray?_bracketed _ hno ?_
  rw [String.ofList_toList]
  exact hword

theorem ofLengths_reverse_iff (t : ValueType) :
    t.atom.ofLengths t.lengths.reverse = t ↔ t.lengths.reverse = t.lengths := by
  refine ⟨fun h => ?_, fun h => by rw [h, ofLengths_atom]⟩
  simpa using congrArg lengths h

/-- A type whose lengths are known can be written. -/
theorem typeName_of_isSized {t : ValueType} (h : t.IsSized) :
    Dialect.typeName .glsl t = .ok (Dialect.glslSpelling t) := by
  refine Dialect.typeName_eq_ok_iff.2 ⟨?_, rfl⟩
  induction t with
  | array element count ih =>
    rw [Dialect.refuses?, if_neg (h.lengths count (by simp [lengths]))]
    exact ih h.element
  | _ => rfl

end ValueType

/-! ### Constructors -/

namespace Build

theorem length_of_mapM {α β : Type} {f : α → Build β} {xs : List α} {ys : List β} {env : Env}
    {s s' : BuildState} (h : xs.mapM f env s = .ok (ys, s')) : ys.length = xs.length := by
  induction xs generalizing s s' ys with
  | nil =>
    cases h
    rfl
  | cons x xs ih =>
    rw [List.mapM_cons] at h
    obtain ⟨y, s₁, -, h⟩ := of_bind h
    obtain ⟨zs, s₂, hzs, h⟩ := of_bind h
    cases h
    simp [ih hzs]

/-- The code of an array is a constructor with an argument for each value. -/
theorem of_buildArray {g : Generator} {element : ValueType} {values : List NodeId} {env : Env}
    {s s' : BuildState} {e : Expr} (h : buildArray g element values env s = .ok (e, s')) :
    ∃ args, e = .construct (.array element (UInt32.ofNat values.length)) args ∧
      args.length = values.length := by
  obtain ⟨type, htype, h⟩ := of_ofExcept h
  obtain ⟨args, s₁, hargs, h⟩ := of_bind h
  obtain ⟨_, s₂, -, h⟩ := of_bind h
  cases h
  have hlength : args.length = values.length := by
    simpa using length_of_mapM hargs
  refine ⟨args, ?_, hlength⟩
  unfold arrayType at htype
  split at htype
  · cases htype
  · split at htype <;> cases htype
    rfl

/-- The type that a constructor of an array names has as many elements as there are arguments, or
as the innermost of the arrays that are its elements. -/
theorem buildArray_text {g : Generator} {element : ValueType} {values : List NodeId} {env : Env}
    {s s' : BuildState} {e : Expr} (helement : element.atom.scalarKind.isSome = true)
    (h : buildArray g element values env s = .ok (e, s')) :
    ∃ text args inner, e.text .glsl = text ++ Dialect.arguments args ∧
      args.length = values.length ∧ ValueType.readGlsl? text.toList =
        some (.array inner (element.lengths.getLast?.getD (UInt32.ofNat args.length))) := by
  obtain ⟨args, rfl, hlength⟩ := of_buildArray h
  let t := ValueType.array element (UInt32.ofNat values.length)
  have htexts : (Expr.texts .glsl args).length = values.length := by
    rw [Expr.texts_eq_map, List.length_map, hlength]
  have hread : ValueType.readGlsl? (Dialect.glslSpelling t).toList =
      some (element.atom.ofLengths (element.lengths.reverse ++ [UInt32.ofNat values.length])) := by
    rw [ValueType.readGlsl?_spelling (t := t) helement, ValueType.lengths, List.reverse_cons]
    rfl
  refine ⟨Dialect.glslSpelling t, Expr.texts .glsl args, ?_⟩
  rw [htexts, hread, ← List.head?_reverse]
  cases element.lengths.reverse with
  | nil => exact ⟨element.atom, rfl, rfl, rfl⟩
  | cons n ns => exact ⟨element.atom.ofLengths (ns ++ [UInt32.ofNat values.length]), rfl, rfl, rfl⟩

end Build

/-- A GLSL type denotes the arrays with the lengths in the other order, so itself if and only if the
lengths are the same from both ends. A constructor names a type with as many elements as it has
arguments if and only if its elements are no arrays, or the innermost of them have as many. -/
theorem glsl_array_types (t element : ValueType) (g : Generator) (values : List NodeId) (env : Env)
    (s s' : BuildState) (e : Expr) :
    (t.IsSized → ∃ text, Dialect.typeName .glsl t = .ok text ∧
      ValueType.readGlsl? text.toList = some (t.atom.ofLengths t.lengths.reverse) ∧
      (ValueType.readGlsl? text.toList = some t ↔ t.lengths.reverse = t.lengths)) ∧
    (element.atom.scalarKind.isSome = true →
      Build.buildArray g element values env s = .ok (e, s') →
      ∃ text args inner outer, e.text .glsl = text ++ Dialect.arguments args ∧
        args.length = values.length ∧
        ValueType.readGlsl? text.toList = some (.array inner outer) ∧
        (outer = UInt32.ofNat args.length ↔
          ∀ n ∈ element.lengths.getLast?, n = UInt32.ofNat args.length)) := by
  refine ⟨fun ht => ?_, fun helement h => ?_⟩
  · have hread := ValueType.readGlsl?_spelling ht.atom
    refine ⟨_, ValueType.typeName_of_isSized ht, hread, ?_⟩
    rw [hread, Option.some.injEq]
    exact ValueType.ofLengths_reverse_iff t
  · obtain ⟨text, args, inner, htext, hlength, hread⟩ := Build.buildArray_text helement h
    refine ⟨text, args, inner, _, htext, hlength, hread, ?_⟩
    cases element.lengths.getLast? <;> simp

/-- Three pairs of floats. -/
def pairs : Graph := .ofNodes
  [.const .float [1], .array .float [⟨0⟩, ⟨0⟩], .array (.array .float 2) [⟨1⟩, ⟨1⟩, ⟨1⟩]]

/-- Two pairs have a type that reads as itself; the constructor of three pairs names two of
something. -/
theorem pairs_named :
    (∃ text, Dialect.typeName .glsl (.array (.array .float 2) 2) = .ok text ∧
      ValueType.readGlsl? text.toList = some (.array (.array .float 2) 2)) ∧
    ∃ s' e, Build.buildArray (Build.generator 8) (.array .float 2) [⟨1⟩, ⟨1⟩, ⟨1⟩]
        (Build.fragmentOf pairs) (.start (.ofGraph pairs .standard)) = .ok (e, s') ∧
      ∃ text args inner outer, e.text .glsl = text ++ Dialect.arguments args ∧ args.length = 3 ∧
        ValueType.readGlsl? text.toList = some (.array inner outer) ∧ outer ≠ 3 := by
  have accepted : (Build.buildArray (Build.generator 8) (.array .float 2) [⟨1⟩, ⟨1⟩, ⟨1⟩]
      (Build.fragmentOf pairs) (.start (.ofGraph pairs .standard))).isOk = true := by decide +kernel
  obtain ⟨⟨e, s'⟩, h⟩ := ok_of_isOk accepted
  obtain ⟨types, constructors⟩ :=
    glsl_array_types (.array (.array .float 2) 2) (.array .float 2) _ _ _ _ s' e
  obtain ⟨text, hname, -, hiff⟩ := types (.array (.array ⟨rfl, nofun⟩ (by decide)) (by decide))
  obtain ⟨text', args, inner, outer, htext, hlength, hread, houter⟩ := constructors (by decide) h
  refine ⟨⟨text, hname, hiff.2 (by decide)⟩, s', e, h, text', args, inner, outer, htext, hlength,
    hread, ?_⟩
  rintro rfl
  exact absurd (houter.1 (by rw [hlength]; rfl) 2 rfl) (by rw [hlength]; decide)

/-- The type of three pairs is written as a text that denotes two triples. -/
theorem ValueType.pairs_misread :
    Dialect.typeName .glsl (array (array float 2) 3) = .ok "float[2][3]" ∧
      readGlsl? "float[2][3]".toList = some (array (array float 3) 2) :=
  ⟨by rfl, by decide⟩

end ShaderGraph
