import ShaderGraph.Code.Conversion
import ShaderGraph.Dialect.Spelling
import ShaderGraph.Proofs.Numerals
import ShaderGraph.Proofs.Scanning
import ShaderGraph.Proofs.Tables

/-!
# Brackets and operands

`Operand.scan` reads a text and keeps the brackets that are open. It refuses brackets that do not
match, and operators outside of all brackets. A text stands anywhere if it is passed over wherever it
is put (`Operand.Stands`), and is passed over inside of brackets if it is at least there
(`Operand.Passes`): brackets around such a text make it stand (`Operand.Passes.parens`).

An expression keeps its meaning wherever its text is put, as the text is one operand: its brackets
match, and no operator stands outside of them.

`Dialect.Operand` says that outside of all brackets a text has only words, numbers and points, the
minus sign of a numeral and the type arguments of a constructor apart. Inside of brackets such a text
is passed over, whatever follows (`Dialect.Operand.passes`). `Expr.Plain` is about expressions whose
names are words, and which spell no structs; their texts are operands (`Expr.Plain.operand`).
-/

namespace ShaderGraph

/-! ## Brackets -/

namespace Operand

/-! ### Reading -/

/-- Whether a character may stand outside of brackets: words and numbers, and the point between the
parts of a value. -/
def isPart (c : Char) : Bool := Name.isWordChar c || c == '.'

/-- The brackets that are open after a character, where those before it are closed by the characters
`opened`, innermost first. There are none if brackets do not match, or if an operator stands outside of
all brackets. -/
def step (opened : List Char) (c : Char) : Option (List Char) :=
  if c = '(' then some (')' :: opened)
  else if c = '[' then some (']' :: opened)
  else if c = ')' ∨ c = ']' then if opened.head? = some c then some opened.tail else none
  else if isPart c = false ∧ opened = [] then none
  else some opened

/-- The brackets that are open at the end of a text. Two minus signs would make a decrement. -/
def scan : List Char → List Char → Option (List Char)
  | opened, [] => some opened
  | opened, c :: cs =>
    if c = '-' ∧ cs.head? = some '-' then none else (step opened c).bind fun after => scan after cs

/-- Whether a character neither opens nor closes brackets and is no minus sign. -/
def isInner (c : Char) : Bool := c != '(' && c != '[' && c != ')' && c != ']' && c != '-'

variable {c o : Char} {cs opened after post : List Char}

theorem isInner_of_isPart (h : isPart c = true) : isInner c = true := by
  have ne : ∀ d : Char, isPart d = false → (c != d) = true := by
    rintro d hd
    rw [bne_iff_ne]
    rintro rfl
    exact Bool.false_ne_true (hd.symm.trans h)
  unfold isInner
  rw [ne '(' rfl, ne '[' rfl, ne ')' rfl, ne ']' rfl, ne '-' rfl]
  rfl

/-- Other characters leave the brackets open, parts everywhere. -/
theorem step_inner (h : isInner c = true) (hp : isPart c = true ∨ opened ≠ []) :
    step opened c = some opened := by
  simp only [isInner, Bool.and_eq_true, bne_iff_ne] at h
  obtain ⟨⟨⟨⟨paren, square⟩, closed⟩, closed'⟩, -⟩ := h
  unfold step
  rw [if_neg paren, if_neg square, if_neg (not_or.2 ⟨closed, closed'⟩), if_neg]
  rintro ⟨none, empty⟩
  obtain part | inside := hp
  · exact Bool.false_ne_true (none.symm.trans part)
  · exact inside empty

/-- Brackets further out do not matter. -/
theorem step_append (h : step opened c = some after) (outer : List Char) :
    step (opened ++ outer) c = some (after ++ outer) := by
  unfold step at h ⊢
  split at h
  · next paren =>
    cases h
    exact if_pos paren
  next noParen =>
  rw [if_neg noParen]
  split at h
  · next square =>
    cases h
    exact if_pos square
  next noSquare =>
  rw [if_neg noSquare]
  split at h
  · next closes =>
    rw [if_pos closes]
    split at h
    · next first =>
      cases h
      cases opened with
      | nil => cases first
      | cons o rest => exact if_pos first
    · cases h
  next noClose =>
  rw [if_neg noClose]
  split at h
  · cases h
  next inside =>
  cases h
  exact if_neg fun hand => inside ⟨hand.1, (List.append_eq_nil_iff.1 hand.2).1⟩

theorem scan_cons (h : isInner c = true) (hp : isPart c = true ∨ opened ≠ []) :
    scan opened (c :: cs) = scan opened cs := by
  have minus : c ≠ '-' := by
    rintro rfl
    cases h
  rw [scan, if_neg fun hand => minus hand.1, step_inner h hp, Option.bind_some]

theorem scan_parts (h : cs.all isPart = true) (opened post : List Char) :
    scan opened (cs ++ post) = scan opened post := by
  induction cs with
  | nil => rfl
  | cons c cs ih =>
    obtain ⟨part, rest⟩ := Bool.and_eq_true_iff.1 h
    rw [List.cons_append, scan_cons (isInner_of_isPart part) (.inl part)]
    exact ih rest

/-- What closes all brackets that it is read with, does so inside of others, whatever follows. -/
theorem scan_append (h : scan opened cs = some []) (outer post : List Char) :
    scan (opened ++ outer) (cs ++ post) = scan outer post := by
  induction cs generalizing opened with
  | nil =>
    obtain rfl : opened = [] := Option.some.inj h
    rfl
  | cons c cs ih =>
    rw [List.cons_append]
    unfold scan at h
    split at h
    · cases h
    next single =>
    obtain ⟨after, hstep, rest⟩ := Option.bind_eq_some_iff.1 h
    -- a text that ends in a minus sign leaves a bracket open
    have apart : ¬(c = '-' ∧ (cs ++ post).head? = some '-') := by
      rintro ⟨rfl, twice⟩
      cases cs with
      | nil =>
        obtain rfl : after = [] := Option.some.inj rest
        cases opened <;> cases hstep
      | cons d ds => exact single ⟨rfl, twice⟩
    rw [scan, if_neg apart, step_append hstep outer, Option.bind_some]
    exact ih rest

/-! ### Texts inside of brackets -/

/-- The text is passed over wherever it stands inside of brackets. -/
def Passes (cs : List Char) : Prop :=
  ∀ o opened post, scan (o :: opened) (cs ++ post) = scan (o :: opened) post

/-- The text is passed over wherever it stands. -/
def Stands (cs : List Char) : Prop := ∀ opened post, scan opened (cs ++ post) = scan opened post

theorem Stands.passes (h : Stands cs) : Passes cs := fun _ _ => h _

theorem stands_of_scan (h : scan [] cs = some []) : Stands cs := fun opened post =>
  scan_append h opened post

theorem Stands.scan (h : Stands cs) : scan [] cs = some [] := by
  have whole := h [] []
  rwa [List.append_nil] at whole

theorem stands_of_parts (h : cs.all isPart = true) : Stands cs := scan_parts h

theorem passes_of_inner (h : cs.all isInner = true) : Passes cs := by
  intro o opened post
  induction cs with
  | nil => rfl
  | cons c cs ih =>
    obtain ⟨inner, rest⟩ := Bool.and_eq_true_iff.1 h
    rw [List.cons_append, scan_cons inner (.inr (List.cons_ne_nil _ _))]
    exact ih rest

variable {ds : List Char}

theorem Stands.append (h : Stands cs) (h' : Stands ds) : Stands (cs ++ ds) := by
  intro opened post
  rw [List.append_assoc, h, h']

theorem Passes.append (h : Passes cs) (h' : Passes ds) : Passes (cs ++ ds) := by
  intro o opened post
  rw [List.append_assoc, h, h']

/-- A minus sign is passed over inside of brackets, unless another follows. -/
theorem Passes.minus (h : Passes cs) (single : ∀ post, (cs ++ post).head? ≠ some '-') :
    Passes ('-' :: cs) := by
  intro o opened post
  rw [List.cons_append, scan, if_neg fun hand => single post hand.2]
  exact h o opened post

/-- Brackets around a text make it stand anywhere. -/
theorem Passes.parens (h : Passes cs) : Stands ('(' :: (cs ++ [')'])) := by
  intro opened post
  have inside : scan opened ('(' :: (cs ++ [')']) ++ post) =
      scan (')' :: opened) (cs ++ (')' :: post)) := by
    rw [List.cons_append, List.append_assoc]
    rfl
  rw [inside, h]
  rfl

theorem Passes.squares (h : Passes cs) : Stands ('[' :: (cs ++ [']'])) := by
  intro opened post
  have inside : scan opened ('[' :: (cs ++ [']']) ++ post) =
      scan (']' :: opened) (cs ++ (']' :: post)) := by
    rw [List.cons_append, List.append_assoc]
    rfl
  rw [inside, h]
  rfl

/-- Texts between commas. -/
theorem passes_intercalate {items : List (List Char)} (h : ∀ x ∈ items, Passes x) :
    Passes ([',', ' '].intercalate items) := by
  induction items with
  | nil => exact fun _ _ _ => rfl
  | cons x rest ih =>
    have first := h x (.head _)
    cases rest with
    | nil =>
      rw [List.intercalate_singleton]
      exact first
    | cons y ys =>
      have comma : Passes [',', ' '] := passes_of_inner (by decide)
      rw [List.intercalate_cons_cons]
      exact (first.append comma).append (ih fun z hz => h z (.tail _ hz))

theorem toList_arguments (args : List String) : (Dialect.arguments args).toList =
    '(' :: ([',', ' '].intercalate (args.map String.toList) ++ [')']) := by
  unfold Dialect.arguments
  rw [String.toList_append, String.toList_append, String.toList_intercalate]
  rfl

theorem stands_arguments {args : List String} (h : ∀ x ∈ args, Passes x.toList) :
    Stands (Dialect.arguments args).toList := by
  rw [toList_arguments]
  refine (passes_intercalate fun x hx => ?_).parens
  obtain ⟨arg, harg, rfl⟩ := List.mem_map.1 hx
  exact h arg harg

/-! ### Types -/

theorem isPart_of_isDigit (h : c.isDigit = true) : isPart c = true := by
  simp [isPart, Name.isWordChar, Char.isAlphanum, h]

theorem parts_toString (n : Nat) : (toString n).toList.all isPart = true := by
  rw [Nat.toString_eq_repr, Nat.toList_repr, List.all_eq_true]
  exact fun c hc => isPart_of_isDigit (Text.isDigit_of_mem_toDigits hc)

theorem inner_of_parts (h : cs.all isPart = true) : cs.all isInner = true :=
  List.all_eq_true.2 fun c hc => isInner_of_isPart (List.all_eq_true.1 h c hc)

theorem inner_wgslSpelling {t : ValueType} (h : t.heldStruct? = none) :
    (Dialect.wgslSpelling t).toList.all isInner = true := by
  induction t with
  | struct name => cases h
  | scalar k => cases k <;> decide
  | vector k w => cases k <;> cases w <;> decide
  | matrix w => cases w <;> decide
  | void | texture => decide
  | array element count ih =>
    have element := ih h
    have digits := inner_of_parts (parts_toString count.toNat)
    unfold Dialect.wgslSpelling
    split
    · show ("array<" ++ Dialect.wgslSpelling _ ++ ">").toList.all isInner = true
      simp only [String.toList_append, List.all_append, element]
      decide
    · show ("array<" ++ Dialect.wgslSpelling _ ++ ", " ++ toString count.toNat ++
        ">").toList.all isInner = true
      simp only [String.toList_append, List.all_append, element, digits]
      decide

theorem stands_glslSpelling {t : ValueType} (h : t.heldStruct? = none) :
    Stands (Dialect.glslSpelling t).toList := by
  induction t with
  | struct name => cases h
  | scalar k => cases k <;> exact stands_of_parts (by decide)
  | vector k w => cases k <;> cases w <;> exact stands_of_parts (by decide)
  | matrix w => cases w <;> exact stands_of_parts (by decide)
  | void | texture => exact stands_of_parts (by decide)
  | array element count ih =>
    have list : (Dialect.glslSpelling (.array element count)).toList =
        (Dialect.glslSpelling element).toList ++ '[' :: ((toString count.toNat).toList ++ [']']) := by
      show (Dialect.glslSpelling element ++ "[" ++ toString count.toNat ++ "]").toList = _
      simp only [String.toList_append, List.append_assoc]
      rfl
    rw [list]
    exact (ih h).append (stands_of_parts (parts_toString _)).passes.squares

end Operand

/-! ## Operands -/

namespace Dialect

open Operand

/-- What may stand in front of an operand outside of brackets without being a part: the minus sign of
a numeral, and a type with its arguments in front of those of a constructor. -/
inductive Lead (d : Dialect) : List Char → List Char → Prop
  | none (rest : List Char) : Lead d [] rest
  | sign {c : Char} {cs : List Char} (h : c.isDigit = true) : Lead d ['-'] (c :: cs)
  | type {t : ValueType} {cs : List Char} (hd : d = .wgsl) (ht : t.heldStruct? = none) :
      Lead d (d.spelling t).toList ('(' :: cs)

/-- A text that is one operand: its brackets match, and apart from what leads there are only parts
outside of them. -/
inductive Operand (d : Dialect) : List Char → Prop
  | mk {lead rest : List Char} (leads : d.Lead lead rest) (closes : scan [] rest = some [])
      (nonempty : rest ≠ []) : d.Operand (lead ++ rest)

variable {d : Dialect} {lead cs ds : List Char}

theorem Lead.append (h : d.Lead lead cs) : d.Lead lead (cs ++ ds) := by
  cases h with
  | none => exact .none _
  | sign h => exact .sign h
  | type hd ht => exact .type hd ht

namespace Operand

theorem of_stands (h : Stands cs) (hne : cs ≠ []) : d.Operand cs := .mk (.none cs) h.scan hne

theorem append (h : d.Operand cs) (hs : Stands ds) : d.Operand (cs ++ ds) := by
  obtain ⟨leads, closes, nonempty⟩ := h
  rw [List.append_assoc]
  refine .mk leads.append ((stands_of_scan closes).append hs).scan ?_
  exact List.append_ne_nil_of_left_ne_nil nonempty _

theorem ne_nil (h : d.Operand cs) : cs ≠ [] := by
  obtain ⟨leads, closes, nonempty⟩ := h
  exact List.append_ne_nil_of_right_ne_nil _ nonempty

/-- Wherever an operand is put inside of brackets, it changes nothing for what is around it. -/
theorem passes (h : d.Operand cs) : Passes cs := by
  obtain ⟨leads, closes, nonempty⟩ := h
  have rest := (stands_of_scan closes).passes
  cases leads with
  | none => exact rest
  | sign digit =>
    refine rest.minus fun post minus => ?_
    rw [List.cons_append, List.head?_cons, Option.some.injEq] at minus
    rw [minus] at digit
    cases digit
  | type hd ht =>
    subst hd
    exact (passes_of_inner (inner_wgslSpelling ht)).append rest

end Operand

end Dialect

/-! ### Words and numerals -/

open Operand

/-- A text of letters, digits and underscores. -/
def Name.IsWord (name : String) : Prop :=
  name.toList ≠ [] ∧ name.toList.all Name.isWordChar = true

instance (name : String) : Decidable (Name.IsWord name) :=
  inferInstanceAs (Decidable (_ ∧ _))

namespace Name.IsWord

variable {d : Dialect} {name : String}

theorem stands (h : IsWord name) : Stands name.toList :=
  stands_of_parts (List.all_eq_true.2 fun c hc =>
    Bool.or_eq_true_iff.2 (.inl (List.all_eq_true.1 h.2 c hc)))

theorem operand (h : IsWord name) : d.Operand name.toList := .of_stands h.stands h.1

theorem underscored (h : IsWord name) : IsWord (name ++ "_") := by
  refine ⟨?_, ?_⟩
  · rw [String.toList_append]
    exact List.append_ne_nil_of_left_ne_nil h.1 _
  · rw [String.toList_append, List.all_append, h.2]
    decide

end Name.IsWord

variable {d : Dialect}

theorem operand_of_digits {cs : List Char} (h : ∀ c ∈ cs, c.isDigit = true ∨ c = '.')
    (hne : cs ≠ []) : d.Operand cs := by
  refine .of_stands (stands_of_parts (List.all_eq_true.2 fun c hc => ?_)) hne
  obtain digit | rfl := h c hc
  · exact isPart_of_isDigit digit
  · rfl

/-- A minus sign in front of a numeral. -/
theorem operand_of_sign {c : Char} {cs : List Char} (first : c.isDigit = true)
    (h : ∀ c ∈ cs, c.isDigit = true ∨ c = '.') : d.Operand ('-' :: c :: cs) := by
  have parts : (c :: cs).all isPart = true := by
    refine List.all_eq_true.2 (List.forall_mem_cons.2 ⟨isPart_of_isDigit first, fun x hx => ?_⟩)
    obtain digit | rfl := h x hx
    · exact isPart_of_isDigit digit
    · rfl
  exact .mk (.sign first) (stands_of_parts parts).scan (List.cons_ne_nil _ _)

theorem operand_signed {negative : Bool} {c : Char} {cs : List Char} (first : c.isDigit = true)
    (h : ∀ c ∈ cs, c.isDigit = true ∨ c = '.') :
    d.Operand (if negative then '-' :: c :: cs else c :: cs) := by
  split
  · exact operand_of_sign first h
  · exact operand_of_digits (List.forall_mem_cons.2 ⟨.inl first, h⟩) (List.cons_ne_nil _ _)

theorem operand_toDigits (negative : Bool) (n : Nat) :
    d.Operand (if negative then '-' :: Nat.toDigits 10 n else Nat.toDigits 10 n) := by
  obtain ⟨c, cs, digits⟩ := List.exists_cons_of_ne_nil (@Nat.toDigits_ne_nil n 10)
  have all : ∀ x ∈ c :: cs, x.isDigit = true := fun x hx =>
    Text.isDigit_of_mem_toDigits (digits ▸ hx)
  rw [digits]
  exact operand_signed (all c (.head _)) fun x hx => .inl (all x (.tail _ hx))

/-- A number that is written out begins with a digit. -/
theorem positional_eq_cons (n : Nat) (point : ℤ) : ∃ c cs,
    Decimal.positional true (Nat.toDigits 10 n) point = c :: cs ∧ c.isDigit = true := by
  obtain ⟨c, cs, digits⟩ := List.exists_cons_of_ne_nil (@Nat.toDigits_ne_nil n 10)
  have first : c.isDigit = true := Text.isDigit_of_mem_toDigits (digits ▸ List.mem_cons_self)
  rw [digits]
  unfold Decimal.positional
  split
  · exact ⟨_, _, rfl, rfl⟩
  · split
    · next right inside =>
      obtain ⟨k, hk⟩ : ∃ k, point.toNat = k + 1 := Nat.exists_eq_succ_of_ne_zero (by omega)
      rw [hk, List.take_succ_cons]
      exact ⟨_, _, rfl, first⟩
    · exact ⟨_, _, rfl, first⟩

theorem operand_literal (kind : ScalarKind) (v : Float) :
    d.Operand (Dialect.literal kind v).toList := by
  cases kind with
  | bool =>
    show d.Operand (if v == 0 then "false" else "true").toList
    split
    · exact Name.IsWord.operand (by decide)
    · exact Name.IsWord.operand (by decide)
  | int =>
    show d.Operand (toString v.toModel.toInt64.toInt).toList
    rw [Int.toString_eq_repr]
    cases v.toModel.toInt64.toInt with
    | ofNat n =>
      show d.Operand (Nat.repr n).toList
      rw [Nat.toList_repr]
      exact operand_toDigits false n
    | negSucc n =>
      show d.Operand ("-" ++ Nat.repr (n + 1)).toList
      rw [String.toList_append, Nat.toList_repr]
      exact operand_toDigits true (n + 1)
  | uint =>
    show d.Operand (toString v.toUInt64.toNat ++ "u").toList
    rw [String.toList_append]
    refine .append ?_ (stands_of_parts (by decide))
    rw [Nat.toString_eq_repr, Nat.toList_repr]
    exact operand_toDigits false _
  | float =>
    show d.Operand (Dialect.floatLiteral v).toList
    unfold Dialect.floatLiteral Decimal.Style.float?
    cases Decimal.ofFloat? v with
    | none => exact operand_of_digits (by simp) (by decide)
    | some x =>
      let n := (Decimal.shortest .up x).coefficient
      let point := (Nat.toDigits 10 n).length + (Decimal.shortest .up x).exponent
      have text : (Dialect.literalStyle.writeDyadic x).toList =
          if x.negative then '-' :: Decimal.positional true (Nat.toDigits 10 n) point
          else Decimal.positional true (Nat.toDigits 10 n) point := String.toList_ofList
      have all := @mem_positional n point
      obtain ⟨c, cs, digits, first⟩ := positional_eq_cons n point
      rw [digits] at text all
      rw [Option.map_some, Option.getD_some, text]
      exact operand_signed first fun x hx => all (.tail _ hx)

/-! ### Names -/

/-- The names of a reference are words. -/
def Reference.Plain : Reference → Prop
  | .local name | .meshAttribute name | .storage name | .varying _ name => Name.IsWord name
  | .uniform inst member => Name.IsWord inst ∧ Name.IsWord member
  | .builtin _ => True

theorem operand_member {base : String} {name : List Char} (h : d.Operand base.toList)
    (hn : Stands name) : d.Operand ((base ++ ".").toList ++ name) := by
  rw [String.toList_append, List.append_assoc]
  exact h.append (.append (stands_of_parts (by decide)) hn)

theorem Reference.Plain.operand {r : Reference} (h : r.Plain) : d.Operand (r.text d).toList := by
  cases r with
  | «local» | meshAttribute | storage => exact Name.IsWord.operand h
  | uniform inst member =>
    cases d with
    | glsl => exact h.2.operand
    | wgsl =>
      show Dialect.wgsl.Operand (inst ++ "." ++ member).toList
      rw [String.toList_append]
      exact operand_member h.1.operand h.2.stands
  | varying stage name =>
    have output : Name.IsWord "output" := by decide
    show d.Operand (d.varying stage name).toList
    unfold Dialect.varying
    split
    · show Dialect.wgsl.Operand ("output" ++ "." ++ name).toList
      rw [String.toList_append]
      exact operand_member output.operand (Name.IsWord.stands h)
    · exact Name.IsWord.operand h
  | builtin b =>
    refine .of_stands (stands_of_scan ?_) ?_
    · cases d <;> cases b <;> decide
    · cases d <;> cases b <;> decide

/-! ### Calls -/

theorem operand_call {f : String} {args : List String} (hf : Name.IsWord f)
    (h : ∀ x ∈ args, Passes x.toList) : d.Operand (f ++ Dialect.arguments args).toList := by
  rw [String.toList_append]
  exact hf.operand.append (stands_arguments h)

theorem operand_constructor {type : ValueType} {args : List String} (ht : type.heldStruct? = none)
    (h : ∀ x ∈ args, Passes x.toList) :
    d.Operand (Dialect.constructor (d.spelling type) args).toList := by
  have stands := stands_arguments h
  unfold Dialect.constructor
  rw [String.toList_append]
  rw [toList_arguments] at stands ⊢
  cases d with
  | glsl =>
    refine .of_stands ((stands_glslSpelling ht).append stands) ?_
    exact List.append_ne_nil_of_right_ne_nil _ (List.cons_ne_nil _ _)
  | wgsl => exact .mk (.type rfl ht) stands.scan (List.cons_ne_nil _ _)

theorem operand_mathCall (m : MathMethod) {args : List String}
    (h : ∀ x ∈ args, Passes x.toList) : d.Operand (d.mathCall m args).toList := by
  have name : Name.IsWord (d.methodName m) := by
    cases d <;> cases m <;> decide
  cases d with
  | wgsl => exact operand_call name h
  | glsl =>
    cases m with
    | saturate =>
      -- the bounds of a clamp stand behind the arguments
      have bounds : Passes ", 0.0, 1.0".toList := passes_of_inner (by decide)
      have list : (Dialect.glsl.mathCall .saturate args).toList = "clamp".toList ++ '(' ::
          ([',', ' '].intercalate (args.map String.toList) ++ ", 0.0, 1.0".toList ++ [')']) := by
        show ("clamp" ++ "(" ++ ", ".intercalate args ++ ", 0.0, 1.0)").toList = _
        simp only [String.toList_append, String.toList_intercalate, List.append_assoc]
        rfl
      rw [list]
      refine name.operand.append (Passes.append (passes_intercalate fun x hx => ?_) bounds).parens
      obtain ⟨arg, harg, rfl⟩ := List.mem_map.1 hx
      exact h arg harg
    | _ => exact operand_call name h

theorem operand_operator (op : BinaryOp) {a b : String} (ha : Passes a.toList)
    (hb : Passes b.toList) :
    d.Operand ("(" ++ a ++ " " ++ op.symbol ++ " " ++ b ++ ")").toList := by
  have symbol : Passes (" " ++ op.symbol ++ " ").toList := by
    have blank : Passes [' '] := passes_of_inner rfl
    have minus : Passes ['-', ' '] := blank.minus fun _ => by simp
    cases op with
    | sub => exact blank.append minus
    | _ => exact passes_of_inner (by decide)
  have list : ("(" ++ a ++ " " ++ op.symbol ++ " " ++ b ++ ")").toList =
      '(' :: (a.toList ++ (" " ++ op.symbol ++ " ").toList ++ b.toList ++ [')']) := by
    simp only [String.toList_append, List.append_assoc]
    rfl
  rw [list]
  exact .of_stands ((ha.append symbol).append hb).parens (List.cons_ne_nil _ _)

/-- Texts with commas between them are those of a call. -/
theorem operand_of_call {f text : String} {args : List String} (hf : Name.IsWord f)
    (h : ∀ x ∈ args, Passes x.toList)
    (ht : text.toList = f.toList ++ '(' :: ([',', ' '].intercalate (args.map String.toList) ++ [')'])) :
    d.Operand text.toList := by
  rw [ht, ← toList_arguments, ← String.toList_append]
  exact operand_call hf h

section

variable {a b c : String} (ha : Passes a.toList) (hb : Passes b.toList)

include ha hb

theorem operand_remainder : d.Operand (d.floatRemainder a b).toList := by
  cases d with
  | glsl =>
    have args : ∀ x ∈ [a, b], Passes x.toList :=
      List.forall_mem_cons.2 ⟨ha, List.forall_mem_singleton.2 hb⟩
    refine @operand_of_call _ "mod" _ _ (by decide) args ?_
    show ("mod(" ++ a ++ ", " ++ b ++ ")").toList = _
    simp only [String.toList_append, List.map_cons, List.map_nil, List.intercalate_cons_cons,
      List.intercalate_singleton, List.append_assoc]
    rfl
  | wgsl =>
    have list : (Dialect.wgsl.floatRemainder a b).toList =
        ("(" ++ a ++ " " ++ BinaryOp.rem.symbol ++ " " ++ b ++ ")").toList := by
      show ("(" ++ a ++ " % " ++ b ++ ")").toList = _
      simp only [String.toList_append, List.append_assoc]
      rfl
    rw [list]
    exact operand_operator .rem ha hb

theorem operand_select (hc : Passes c.toList) : d.Operand (d.select c a b).toList := by
  cases d with
  | glsl =>
    have question : Passes " ? ".toList := passes_of_inner (by decide)
    have colon : Passes " : ".toList := passes_of_inner (by decide)
    have list : (Dialect.glsl.select c a b).toList =
        '(' :: (c.toList ++ " ? ".toList ++ a.toList ++ " : ".toList ++ b.toList ++ [')']) := by
      show ("(" ++ c ++ " ? " ++ a ++ " : " ++ b ++ ")").toList = _
      simp only [String.toList_append, List.append_assoc]
      rfl
    rw [list]
    refine .of_stands (Passes.parens ?_) (List.cons_ne_nil _ _)
    exact (((hc.append question).append ha).append colon).append hb
  | wgsl =>
    have args : ∀ x ∈ [b, a, c], Passes x.toList := List.forall_mem_cons.2
      ⟨hb, List.forall_mem_cons.2 ⟨ha, List.forall_mem_singleton.2 hc⟩⟩
    refine @operand_of_call _ "select" _ _ (by decide) args ?_
    show ("select(" ++ b ++ ", " ++ a ++ ", " ++ c ++ ")").toList = _
    simp only [String.toList_append, List.map_cons, List.map_nil, List.intercalate_cons_cons,
      List.intercalate_singleton, List.append_assoc]
    rfl

end

theorem operand_sample {texture sampler uv : String} {level : Option String}
    (ht : Name.IsWord texture) (hs : Name.IsWord sampler) (hu : Passes uv.toList)
    (hl : ∀ l, level = some l → Passes l.toList) :
    d.Operand (d.sample texture sampler uv level).toList := by
  have pair : d.Operand ("sampler2D" ++ Dialect.arguments [texture, sampler]).toList :=
    operand_call (by decide) (List.forall_mem_cons.2
      ⟨ht.stands.passes, List.forall_mem_singleton.2 hs.stands.passes⟩)
  -- GLSL puts texture and sampler together, WGSL takes both
  cases d with
  | glsl =>
    have combined : ∀ x ∈ ["sampler2D" ++ Dialect.arguments [texture, sampler], uv],
        Passes x.toList :=
      List.forall_mem_cons.2 ⟨pair.passes, List.forall_mem_singleton.2 hu⟩
    cases level with
    | none =>
      refine @operand_of_call _ "texture" _ _ (by decide) combined ?_
      show ("texture(sampler2D(" ++ texture ++ ", " ++ sampler ++ "), " ++ uv ++ ")").toList = _
      simp only [String.toList_append, toList_arguments, List.map_cons, List.map_nil,
        List.intercalate_cons_cons, List.intercalate_singleton, List.append_assoc, List.cons_append]
      rfl
    | some level =>
      have args : ∀ x ∈ ["sampler2D" ++ Dialect.arguments [texture, sampler], uv] ++ [level],
          Passes x.toList :=
        List.forall_mem_append.2 ⟨combined, List.forall_mem_singleton.2 (hl level rfl)⟩
      refine @operand_of_call _ "textureLod" _ _ (by decide) args ?_
      show ("textureLod(sampler2D(" ++ texture ++ ", " ++ sampler ++ "), " ++ uv ++ ", " ++ level ++
        ")").toList = _
      simp only [String.toList_append, toList_arguments, List.map_cons, List.map_nil,
        List.intercalate_cons_cons, List.intercalate_singleton, List.append_assoc, List.cons_append,
        List.nil_append]
      rfl
  | wgsl =>
    have apart : ∀ x ∈ [texture, sampler, uv], Passes x.toList :=
      List.forall_mem_cons.2 ⟨ht.stands.passes, List.forall_mem_cons.2
        ⟨hs.stands.passes, List.forall_mem_singleton.2 hu⟩⟩
    cases level with
    | none =>
      refine @operand_of_call _ "textureSample" _ _ (by decide) apart ?_
      show ("textureSample(" ++ texture ++ ", " ++ sampler ++ ", " ++ uv ++ ")").toList = _
      simp only [String.toList_append, List.map_cons, List.map_nil, List.intercalate_cons_cons,
        List.intercalate_singleton, List.append_assoc]
      rfl
    | some level =>
      have args : ∀ x ∈ [texture, sampler, uv] ++ [level], Passes x.toList :=
        List.forall_mem_append.2 ⟨apart, List.forall_mem_singleton.2 (hl level rfl)⟩
      refine @operand_of_call _ "textureSampleLevel" _ _ (by decide) args ?_
      show ("textureSampleLevel(" ++ texture ++ ", " ++ sampler ++ ", " ++ uv ++ ", " ++ level ++
        ")").toList = _
      simp only [String.toList_append, List.map_cons, List.map_nil, List.intercalate_cons_cons,
        List.intercalate_singleton, List.append_assoc, List.cons_append, List.nil_append]
      rfl

/-- A sign before its own like has brackets between, so that no decrement arises. -/
theorem operand_unary (op : UnaryOp) {operand : String} (h : d.Operand operand.toList) :
    d.Operand (Expr.unaryText op operand).toList := by
  have inner : Passes (op.symbol ++ if op.symbol.toList.isPrefixOf operand.toList then
      "(" ++ operand ++ ")" else operand).toList := by
    rw [String.toList_append]
    split
    · have parens : ("(" ++ operand ++ ")").toList = '(' :: (operand.toList ++ [')']) := by
        simp only [String.toList_append, List.append_assoc]
        rfl
      rw [parens]
      have stands := h.passes.parens.passes
      cases op with
      | neg => exact stands.minus fun _ => by simp
      | not | bitNot => exact Passes.append (passes_of_inner (by decide)) stands
    · next apart =>
      cases op with
      | neg =>
        obtain ⟨c, cs, first⟩ := List.exists_cons_of_ne_nil h.ne_nil
        rw [first] at apart
        refine h.passes.minus fun post same => apart ?_
        rw [first] at same
        obtain rfl := Option.some.inj same
        rfl
      | not | bitNot => exact Passes.append (passes_of_inner (by decide)) h.passes
  have list : (Expr.unaryText op operand).toList = '(' :: ((op.symbol ++
      if op.symbol.toList.isPrefixOf operand.toList then "(" ++ operand ++ ")" else operand).toList ++
        [')']) := by
    unfold Expr.unaryText
    split
    · simp only [String.toList_append, List.append_assoc]
      rfl
    · simp only [String.toList_append, List.append_assoc]
      rfl
  rw [list]
  exact .of_stands inner.parens (List.cons_ne_nil _ _)

/-! ### Expressions -/

namespace Expr

/-- The names of an expression are words, and it spells no structs. Native functions are called in
statements only. -/
inductive Plain : Expr → Prop
  | literal (kind : ScalarKind) (v : Float) : Plain (literal kind v)
  | reference {r : Reference} (h : r.Plain) : Plain (reference r)
  | construct {type : ValueType} {args : List Expr} (ht : type.heldStruct? = none)
      (h : ∀ e ∈ args, Plain e) : Plain (construct type args)
  | operator (op : BinaryOp) {left right : Expr} (hl : Plain left) (hr : Plain right) :
      Plain (operator op left right)
  | remainder {left right : Expr} (hl : Plain left) (hr : Plain right) : Plain (remainder left right)
  | unary (op : UnaryOp) {operand : Expr} (h : Plain operand) : Plain (unary op operand)
  | math (m : MathMethod) {args : List Expr} (h : ∀ e ∈ args, Plain e) : Plain (math m args)
  | select {condition whenTrue whenFalse : Expr} (hc : Plain condition) (ht : Plain whenTrue)
      (he : Plain whenFalse) : Plain (select condition whenTrue whenFalse)
  | sample {texture sampler : String} {uv : Expr} {level : Option Expr} (ht : Name.IsWord texture)
      (hs : Name.IsWord sampler) (hu : Plain uv) (hl : ∀ e, level = some e → Plain e) :
      Plain (sample texture sampler uv level)
  | swizzle {base : Expr} (h : Plain base) (components : List Component) :
      Plain (swizzle base components)
  | index {base i : Expr} (hb : Plain base) (hi : Plain i) : Plain (index base i)

theorem mem_texts {es : List Expr} {x : String} (h : x ∈ texts d es) : ∃ e ∈ es, e.text d = x := by
  rw [texts_eq_map] at h
  exact List.mem_map.1 h

/-- The text of a plain expression is one operand. -/
theorem Plain.operand {e : Expr} (h : e.Plain) : d.Operand (e.text d).toList := by
  have args {es : List Expr} (h : ∀ e ∈ es, d.Operand (e.text d).toList) :
      ∀ x ∈ texts d es, Passes x.toList := by
    intro x hx
    obtain ⟨e, he, rfl⟩ := mem_texts hx
    exact (h e he).passes
  induction h with
  | literal kind v => exact operand_literal kind v
  | reference h => exact h.operand
  | construct ht h ih => exact operand_constructor ht (args ih)
  | operator op hl hr ihl ihr => exact operand_operator op ihl.passes ihr.passes
  | remainder hl hr ihl ihr => exact operand_remainder ihl.passes ihr.passes
  | unary op h ih => exact operand_unary op ih
  | math m h ih => exact operand_mathCall m (args ih)
  | select hc ht he ihc iht ihe => exact operand_select iht.passes ihe.passes ihc.passes
  | @sample _ _ _ level ht hs hu hl ihu ihl =>
    refine operand_sample ht hs ihu.passes fun l h => ?_
    cases level with
    | none => cases h
    | some e =>
      obtain rfl := Option.some.inj h
      exact (ihl e rfl).passes
  | @swizzle base h components ih =>
    have letters : (Component.letters components).toList.all isPart = true := by
      unfold Component.letters
      rw [String.toList_ofList, List.all_map, List.all_eq_true]
      intro c _
      cases c <;> rfl
    show d.Operand (base.text d ++ "." ++ Component.letters components).toList
    rw [String.toList_append]
    exact operand_member ih (stands_of_parts letters)
  | @index base i hb hi ihb ihi =>
    have list : ((Expr.index base i).text d).toList =
        (base.text d).toList ++ '[' :: ((i.text d).toList ++ [']']) := by
      show (base.text d ++ "[" ++ i.text d ++ "]").toList = _
      simp only [String.toList_append, List.append_assoc]
      rfl
    rw [list]
    exact ihb.append ihi.passes.squares

end Expr

end ShaderGraph
