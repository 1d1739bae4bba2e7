import Mathlib.Data.List.Forall2
import ShaderGraph.Code.Conversion
import ShaderGraph.Proofs.OperandTypes
import ShaderGraph.Typing.Component
import ShaderGraph.Typing.Math

/-!
# Coercions that typing asks for

The rules for types and the rules for implicit conversions are written down apart from each other.
They fit: whatever an operator, a math method or a join accepts can be brought to the type that it
is to be brought to (`BinaryOp.Takes.coerces`, `MathMethod.coerces_of_resultType`,
`coerces_of_joinType`). What has a type by these rules consists of scalars.
-/

namespace ShaderGraph

theorem ScalarKind.ne_bool_of_isInteger {k : ScalarKind} (h : k.isInteger = true) : k ≠ .bool := by
  rintro rfl
  cases h

namespace ValueType

variable {k l : ScalarKind} {s s' : Option Width} {t : ValueType} {n : UInt32}

/-- Values of the first type need no explicit conversion to become values of the second. -/
def Coerces (source target : ValueType) : Prop :=
  ∀ e : Expr, ∃ e', e.coerce source target = .ok e'

theorem Coerces.refl (t : ValueType) : t.Coerces t := fun e => ⟨e, e.coerce_self t⟩

/-- Numbers change their kind at equal width, and a scalar fills a vector. -/
theorem coerces_shaped (hk : k ≠ .bool) (hl : l ≠ .bool) (hs : s = none ∨ s = s') :
    (shaped k s).Coerces (shaped l s') := by
  intro e
  by_cases same : shaped k s = shaped l s'
  · exact ⟨e, if_pos same⟩
  unfold Expr.coerce
  rw [if_neg same]
  simp only [scalarKind_shaped, isMatrix_shaped, hk, hl, isScalar_shaped, isVector_shaped,
    components_shaped, decide_false, Bool.or_false, Bool.false_eq_true, if_false]
  rcases hs with rfl | rfl
  · cases s' <;> exact ⟨_, rfl⟩
  · cases s <;> exact ⟨_, by simp; rfl⟩

/-- The scalars and vectors are the shapes. -/
theorem shaped_of_isScalarOrVector (h : t.isScalarOrVector = true) : ∃ k s, t = shaped k s := by
  cases t with
  | scalar k => exact ⟨k, none, rfl⟩
  | vector k w => exact ⟨k, some w, rfl⟩
  | _ => cases h

/-- What consists of a count of scalars is the shape with this count. -/
theorem shaped_of_ofComponents (h : ofComponents k n = some t) :
    ∃ s, t = shaped k s ∧ count s = n := by
  unfold ofComponents at h
  split at h
  · next one =>
    cases h
    exact ⟨none, rfl, one.symm⟩
  · obtain ⟨w, hw, rfl⟩ := Option.map_eq_some_iff.1 h
    refine ⟨some w, rfl, UInt32.toNat_inj.1 ?_⟩
    unfold Width.ofNat? at hw
    split at hw <;> cases hw <;> simp_all [count, Width.toNat]

end ValueType

open ValueType

/-! ### Operators -/

namespace BinaryOp

variable {op : BinaryOp} {a b t : ValueType} {targets : ValueType × ValueType}

/-- What is of one of two kinds can be brought to the kind where they meet. -/
theorem coerces_of_meet {ka kb kind : ScalarKind} (h : ka.meet? kb = some kind)
    (s : Option Width) :
    (shaped ka s).Coerces (shaped kind s) ∧ (shaped kb s).Coerces (shaped kind s) := by
  obtain ⟨rfl, rfl⟩ | ⟨rfl, ha, hb⟩ := ScalarKind.meet?_eq_some h
  · exact ⟨.refl _, .refl _⟩
  · exact ⟨coerces_shaped ha (by decide) (.inr rfl), coerces_shaped hb (by decide) (.inr rfl)⟩

/-- The operands that an operator accepts can be brought to what they are to be brought to. -/
theorem Takes.coerces (h : op.Takes a b t targets) :
    a.Coerces targets.1 ∧ b.Coerces targets.2 := by
  have toFloat : ∀ {k : ScalarKind} {s}, k ≠ .bool → (shaped k s).Coerces (shaped .float s) :=
    fun hk => coerces_shaped hk (by decide) (.inr rfl)
  cases h with
  | logical => exact ⟨.refl _, .refl _⟩
  | compared _ met => exact ⟨(coerces_of_meet met none).1, (coerces_of_meet met none).2⟩
  | shifted _ _ hkb =>
    have counts := ScalarKind.ne_bool_of_isInteger hkb
    exact ⟨.refl _, coerces_shaped counts (by decide) (.inr rfl)⟩
  | bits => exact ⟨.refl _, .refl _⟩
  | numbers _ _ _ met => exact ⟨(coerces_of_meet met _).1, (coerces_of_meet met _).2⟩
  | matrices => exact ⟨.refl _, .refl _⟩
  | scaled _ _ hk => exact ⟨.refl _, toFloat (s := none) hk⟩
  | scales _ _ hk => exact ⟨toFloat (s := none) hk, .refl _⟩
  | transformed w _ hk => exact ⟨.refl _, toFloat (s := some w) hk⟩
  | transforms w _ hk => exact ⟨toFloat (s := some w) hk, .refl _⟩

/-- The result of an operator consists of scalars. -/
theorem Takes.kinded (h : op.Takes a b t targets) : ∃ k, t.scalarKind = some k := by
  cases h <;> first | exact ⟨_, rfl⟩ | exact ⟨_, scalarKind_shaped⟩

end BinaryOp

/-! ### Math methods -/

namespace MathMethod

variable {m : MathMethod} {args : List ValueType} {a first t : ValueType} {forced : Bool}

/-- The arguments of math methods are scalars and vectors of numbers. -/
def Numbers (args : List ValueType) : Prop := ∀ a ∈ args, ∃ k s, k ≠ .bool ∧ a = shaped k s

theorem numbers_of_find? (h : args.find? (fun t => !isNumeric t) = none) : Numbers args := by
  intro a ha
  have numeric : a.isScalarOrVector = true ∧ a.scalarKind ≠ some .bool := by
    simpa [isNumeric] using List.find?_eq_none.1 h a ha
  obtain ⟨k, s, rfl⟩ := shaped_of_isScalarOrVector numeric.1
  exact ⟨k, s, fun hk => numeric.2 (hk ▸ scalarKind_shaped), rfl⟩

/-- Numbers become floats of the same width. -/
theorem floatForm_shaped {k : ScalarKind} {s : Option Width} :
    floatForm (shaped k s) = .ok (shaped .float s) := by
  unfold floatForm withKind?
  rw [isMatrix_shaped, if_neg Bool.false_ne_true, components_shaped, ofComponents_count]

/-- Numbers meet in a kind of numbers. -/
theorem ne_bool_of_commonKind? {kind : ScalarKind} (hn : Numbers args)
    (h : commonKind? forced args = some kind) : kind ≠ .bool := by
  unfold commonKind? at h
  dsimp only at h
  split at h
  · cases h
    decide
  · split at h
    · cases h
      decide
    · next k ks hks =>
      split at h
      · cases h
        obtain ⟨a, ha, hk⟩ := List.mem_filterMap.1 (hks ▸ List.mem_cons_self)
        obtain ⟨l, s, hl, rfl⟩ := hn a ha
        rw [scalarKind_shaped] at hk
        cases hk
        exact hl
      · cases h

/-- All arguments can be brought to the widest of them. -/
theorem coerces_widest (hn : Numbers args) (h : m.widest args forced = .ok t) (ha : a ∈ args) :
    a.Coerces t := by
  unfold widest at h
  dsimp only at h
  split at h
  · cases h
  · next widths =>
    split at h
    · cases h
    · next kind hkind =>
      split at h
      · next ht =>
        cases h
        obtain ⟨s', rfl, hs'⟩ := shaped_of_ofComponents ht
        obtain ⟨k, s, hk, rfl⟩ := hn a ha
        refine coerces_shaped hk (ne_bool_of_commonKind? hn hkind) ?_
        have width := List.any_eq_false.1 (Bool.eq_false_iff.2 widths) _ ha
        rw [isScalar_shaped, components_shaped, ← hs'] at width
        cases s with
        | none => exact .inl rfl
        | some w => exact .inr (count_inj.1 (by simpa using width))
      · cases h

theorem kinded_widest (h : m.widest args forced = .ok t) : ∃ k, t.scalarKind = some k := by
  unfold widest at h
  dsimp only at h
  split at h
  · cases h
  · split at h
    · cases h
    · split at h
      · next ht =>
        cases h
        obtain ⟨s, rfl, -⟩ := shaped_of_ofComponents ht
        exact ⟨_, scalarKind_shaped⟩
      · cases h

/-- Two vectors of one width have a widest one. -/
theorem widest_pair {k l : ScalarKind} {w : Width} :
    m.widest [.vector k w, .vector l w] true = .ok (.vector .float w) := by
  have width : greatestWidth [.vector k w, .vector l w] = count (some w) := by
    simp [greatestWidth, ValueType.components, count]
  unfold widest
  simp only [width, commonKind?, Bool.true_or, if_true]
  rw [ofComponents_count]
  simp [ValueType.components, count, shaped]

/-- The arguments of a call can be brought to what they are to be brought to, and the result consists
of scalars. -/
structure Fits (m : MathMethod) (args : List ValueType) (t : ValueType) : Prop where
  coerces : ∃ targets, m.argumentTypes args t = .ok targets ∧ List.Forall₂ Coerces args targets
  kinded : ∃ k, t.scalarKind = some k

/-- Arguments that are all brought to the type of the result. -/
theorem Fits.all (ht : m.argumentTypes args t = .ok (args.map fun _ => t))
    (h : ∀ a ∈ args, a.Coerces t) (kinded : ∃ k, t.scalarKind = some k) : m.Fits args t :=
  ⟨⟨_, ht, List.forall₂_map_right_iff.2 (List.forall₂_same.2 h)⟩, kinded⟩

/-- Arguments that are all brought to the widest of them. -/
theorem Fits.widest (hn : Numbers args) (h : m.widest args forced = .ok t)
    (ht : m.argumentTypes args t = .ok (args.map fun _ => t)) : m.Fits args t :=
  .all ht (fun _ => coerces_widest hn h) (kinded_widest h)

/-- A number that is brought to the type of the result. -/
theorem Fits.single {k l : ScalarKind} {s : Option Width} (hk : k ≠ .bool) (hl : l ≠ .bool)
    (ht : m.argumentTypes [shaped k s] (shaped l s) = .ok [shaped l s]) :
    m.Fits [shaped k s] (shaped l s) :=
  ⟨⟨_, ht, .cons (coerces_shaped hk hl (.inr rfl)) .nil⟩, _, scalarKind_shaped⟩

/-- A number that is brought to floats. -/
theorem Fits.float {k : ScalarKind} {s s' : Option Width} (hk : k ≠ .bool)
    (ht : m.argumentTypes [shaped k s] (shaped .float s') =
      (floatForm (shaped k s)).map fun t => [t]) :
    m.Fits [shaped k s] (shaped .float s') := by
  rw [floatForm_shaped] at ht
  exact ⟨⟨_, ht, .cons (coerces_shaped hk (by decide) (.inr rfl)) .nil⟩, _, scalarKind_shaped⟩

/-- Two arguments that are brought to the widest of them. -/
theorem Fits.pair {w : ValueType} (numbers : Numbers args) (two : args.length = 2)
    (hw : m.widest args true = .ok w)
    (ht : m.argumentTypes args t = (m.widest args true).map fun t => [t, t])
    (kinded : ∃ k, t.scalarKind = some k) : m.Fits args t := by
  obtain ⟨a, b, rfl⟩ := List.length_eq_two.1 two
  rw [hw] at ht
  have brought : ∀ c ∈ [a, b], c.Coerces w := fun c => coerces_widest numbers hw
  exact ⟨⟨_, ht, .cons (brought a (.head _)) (.cons (brought b (.tail _ (.head _))) .nil)⟩, kinded⟩

theorem fits_dot (numbers : Numbers args) (two : args.length = 2)
    (h : dot.callType args (args.headD .float) = .ok t) : dot.Fits args t := by
  obtain ⟨a, b, rfl⟩ := List.length_eq_two.1 two
  obtain ⟨k, s, hk, rfl⟩ := numbers a (.head _)
  obtain ⟨l, s', hl, rfl⟩ := numbers b (.tail _ (.head _))
  unfold callType at h
  dsimp only at h
  split at h
  · cases h
  next vectors =>
  cases h
  obtain ⟨hs, width⟩ : s.isSome = true ∧ s' = s := by
    simpa [count_inj, Option.isSome_iff_ne_none] using vectors
  obtain ⟨w, rfl⟩ := Option.isSome_iff_exists.1 hs
  subst width
  exact .pair numbers rfl widest_pair rfl ⟨_, rfl⟩

theorem fits_distance (numbers : Numbers args) (two : args.length = 2)
    (h : distance.callType args (args.headD .float) = .ok t) : distance.Fits args t := by
  have h : (distance.widest args true).map (fun _ => ValueType.float) = .ok t := h
  cases hw : distance.widest args true with
  | error e =>
    rw [hw] at h
    cases h
  | ok w =>
    rw [hw] at h
    cases h
    exact .pair numbers two hw rfl ⟨_, rfl⟩

theorem fits_reflect (numbers : Numbers args) (two : args.length = 2)
    (h : reflect.callType args (args.headD .float) = .ok t) : reflect.Fits args t := by
  unfold callType at h
  dsimp only at h
  split at h
  · cases h
  · exact .pair numbers two h rfl (kinded_widest h)

theorem fits_cross (numbers : Numbers args) (two : args.length = 2)
    (h : cross.callType args (args.headD .float) = .ok t) : cross.Fits args t := by
  obtain ⟨a, b, rfl⟩ := List.length_eq_two.1 two
  unfold callType at h
  dsimp only at h
  split at h
  · cases h
  next widths =>
  cases h
  have brought : ∀ c ∈ [a, b], c.Coerces .vec3 := by
    intro c hc
    obtain ⟨k, s, hk, rfl⟩ := numbers c hc
    have width := List.any_eq_false.1 (Bool.eq_false_iff.2 widths) _ hc
    have three : count s = 3 := by simpa using width
    have brought : (shaped k s).Coerces (shaped .float (some .three)) :=
      coerces_shaped hk (by decide) (.inr (count_inj.1 three))
    exact brought
  exact ⟨⟨_, rfl, .cons (brought a (.head _)) (.cons (brought b (.tail _ (.head _))) .nil)⟩, _, rfl⟩

/-- The arguments that a method accepts can be brought to what they are to be brought to. -/
theorem fits_of_resultType (h : m.resultType args = .ok t) : m.Fits args t := by
  unfold resultType at h
  split at h
  · cases h
  next arity =>
  split at h
  · cases h
  next numeric =>
  have arity := Decidable.not_not.1 arity
  have numbers := numbers_of_find? numeric
  have single : m.arity = 1 → ∃ k s, k ≠ .bool ∧ args = [shaped k s] := by
    intro one
    obtain ⟨a, rfl⟩ := List.length_eq_one_iff.1 (arity.trans one)
    obtain ⟨k, s, hk, rfl⟩ := numbers a (.head _)
    exact ⟨k, s, hk, rfl⟩
  cases m with
  | dot => exact fits_dot numbers arity h
  | length =>
    obtain ⟨k, s, hk, rfl⟩ := single rfl
    cases h
    have fits : length.Fits [shaped k s] (shaped .float none) := .float hk rfl
    exact fits
  | normalize =>
    obtain ⟨k, s, hk, rfl⟩ := single rfl
    cases floatForm_shaped.symm.trans h
    exact .float hk rfl
  | distance => exact fits_distance numbers arity h
  | cross => exact fits_cross numbers arity h
  | reflect => exact fits_reflect numbers arity h
  | abs =>
    obtain ⟨k, s, hk, rfl⟩ := single rfl
    cases h
    exact .single hk hk rfl
  | sign =>
    obtain ⟨k, s, hk, rfl⟩ := single rfl
    unfold callType at h
    dsimp only at h
    split at h
    · cases h
    · cases h
      exact .single hk hk rfl
  | min | max | clamp =>
    have widest : MathMethod.widest _ args false = .ok t := h
    exact .widest numbers widest rfl
  | pow | step | atan2 | mix | smoothstep =>
    have widest : MathMethod.widest _ args true = .ok t := h
    exact .widest numbers widest rfl
  | _ =>
    obtain ⟨k, s, hk, rfl⟩ := single rfl
    cases floatForm_shaped.symm.trans h
    exact .single hk (by decide) rfl

end MathMethod

/-! ### Constants, swizzles and joins -/

variable {t : ValueType}

theorem kinded_of_constantType {type : ValueType} {values : List Float}
    (h : constantType type values = .ok t) : ∃ k, t.scalarKind = some k := by
  obtain rfl := constantType_eq h
  unfold constantType at h
  split at h
  · cases h
  · next known => exact Option.ne_none_iff_exists'.1 (by simpa using known)

/-- Components are taken of vectors, and those that a text names can be read. -/
theorem Swizzle.of_resultType {source : ValueType} {components : String}
    (h : Swizzle.resultType source components = .ok t) :
    (∃ cs, Swizzle.read components source.components = .ok cs) ∧ ∃ k, t.scalarKind = some k := by
  unfold Swizzle.resultType at h
  split at h
  · split at h
    · cases h
    · next cs hcs =>
      split at h
      · next ht =>
        cases h
        obtain ⟨s, rfl, -⟩ := shaped_of_ofComponents ht
        exact ⟨⟨cs, hcs⟩, _, scalarKind_shaped⟩
      · cases h
  · cases h

/-- Parts of a join are of the kind of the result, or they are numbers and the result is of floats. -/
theorem joinKind_cases {kinds : List ScalarKind} {k : ScalarKind} (h : joinKind kinds = .ok k)
    {l : ScalarKind} (hl : l ∈ kinds) : l = k ∨ l ≠ .bool ∧ k = .float := by
  unfold joinKind at h
  split at h
  · cases hl
  · next k' ks =>
    split at h
    · next same =>
      cases h
      rcases List.mem_cons.1 hl with rfl | hl
      · exact .inl rfl
      · exact .inl (of_decide_eq_true (List.all_eq_true.1 same l hl))
    · split at h
      · cases h
      · next numbers =>
        cases h
        refine .inr ⟨?_, rfl⟩
        rintro rfl
        exact numbers (List.contains_iff_mem.2 hl)

/-- The parts of a join can be brought to the kind of the result. -/
theorem coerces_of_joinType {parts : List ValueType} (h : joinType parts none = .ok t) :
    (∀ a ∈ parts, a.Coerces (a.recast (t.scalarKind.getD .float))) ∧
      ∃ k, t.scalarKind = some k := by
  unfold joinType at h
  dsimp only at h
  split at h
  · cases h
  next shapes =>
  split at h
  · cases h
  next kind hkind =>
  split at h
  · next ht =>
    cases h
    obtain ⟨s', rfl⟩ : ∃ s', t = shaped kind s' := by
      split at ht
      · cases ht
      · exact (shaped_of_ofComponents ht).imp fun _ h => h.1
    refine ⟨fun a ha => ?_, _, scalarKind_shaped⟩
    have shape := List.any_eq_false.1 (Bool.eq_false_iff.2 shapes) a ha
    obtain ⟨k, s, rfl⟩ := shaped_of_isScalarOrVector (by simpa using shape)
    rw [scalarKind_shaped, Option.getD_some, recast_shaped]
    rcases joinKind_cases hkind (List.mem_filterMap.2 ⟨_, ha, scalarKind_shaped⟩) with rfl | ⟨hk, rfl⟩
    · exact .refl _
    · exact coerces_shaped hk (by decide) (.inr rfl)
  · cases h

end ShaderGraph
