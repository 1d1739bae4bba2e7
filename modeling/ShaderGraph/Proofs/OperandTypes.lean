import ShaderGraph.Typing.Operator

/-!
# Types of operands

What an operator accepts, class by class. The scalars and vectors are written `shaped kind shape`,
where the shape of a scalar is `none` and that of a vector its width, so that the rules for
operands of equal or different width and kind can be read off.

`BinaryOp.Takes` lists what an operator accepts, with the type of the result and the types to which
the operands are brought; whatever has a type is on the list (`takes_of_typeOf`).
-/

namespace ShaderGraph

/-! ### Shapes -/

namespace ValueType

/-- The scalar of a kind, or the vector of a width. -/
def shaped (kind : ScalarKind) : Option Width → ValueType
  | none => .scalar kind
  | some w => .vector kind w

variable {k l : ScalarKind} {s s' : Option Width} {t a b : ValueType}

@[simp] theorem scalarKind_shaped : (shaped k s).scalarKind = some k := by
  cases s <;> rfl

@[simp] theorem isMatrix_shaped : (shaped k s).isMatrix = false := by
  cases s <;> rfl

@[simp] theorem columns_shaped : (shaped k s).columns = none := by
  cases s <;> rfl

@[simp] theorem isScalar_shaped : (shaped k s).isScalar = s.isNone := by
  cases s <;> rfl

@[simp] theorem isVector_shaped : (shaped k s).isVector = s.isSome := by
  cases s <;> rfl

theorem shaped_inj : shaped k s = shaped l s' ↔ k = l ∧ s = s' := by
  cases s <;> cases s' <;> simp [shaped]

/-- The scalars and vectors, and the matrices, are what has a kind. -/
theorem cases_of_scalarKind (h : t.scalarKind = some k) :
    (∃ s, t = shaped k s) ∨ k = .float ∧ ∃ w, t = .matrix w := by
  cases t with
  | scalar =>
    cases h
    exact .inl ⟨none, rfl⟩
  | vector _ w =>
    cases h
    exact .inl ⟨some w, rfl⟩
  | matrix w =>
    cases h
    exact .inr ⟨rfl, w, rfl⟩
  | _ => cases h

theorem shaped_of_scalarKind (h : t.scalarKind = some k) (ht : t.isMatrix = false) :
    ∃ s, t = shaped k s := by
  obtain h | ⟨-, w, rfl⟩ := cases_of_scalarKind h
  · exact h
  · cases ht

/-- How many scalars a value of a shape consists of. -/
def count : Option Width → UInt32
  | none => 1
  | some w => UInt32.ofNat w.toNat

@[simp] theorem components_shaped : (shaped k s).components = count s := by
  cases s <;> rfl

theorem count_inj : count s = count s' ↔ s = s' := by
  obtain _ | _ | _ | _ := s <;> obtain _ | _ | _ | _ := s' <;> decide

theorem count_eq_one : count s = 1 ↔ s = none := by
  obtain _ | _ | _ | _ := s <;> decide

@[simp] theorem columns_matrix {w : Width} : (ValueType.matrix w).columns = some (count (some w)) :=
  rfl

@[simp] theorem ofComponents_count : ofComponents l (count s) = some (shaped l s) := by
  obtain _ | _ | _ | _ := s <;> rfl

@[simp] theorem recast_shaped : (shaped k s).recast l = shaped l s := by
  unfold recast withKind?
  rw [isMatrix_shaped, if_neg Bool.false_ne_true, components_shaped, ofComponents_count,
    Option.getD_some]

@[simp] theorem recast_matrix {w : Width} : (ValueType.matrix w).recast .float = .matrix w := rfl

/-- Two widths meet when they are equal or one of them is that of a scalar. -/
theorem broadcast?_shaped {kind : ScalarKind} :
    (shaped k s).broadcast? (shaped l s') kind = some t ↔
      (s = none ∨ s' = none ∨ s = s') ∧ t = shaped kind (s.or s') := by
  unfold broadcast?
  simp only [components_shaped, count_eq_one, count_inj, ofComponents_count]
  obtain _ | w := s
  · simp [eq_comm]
  · obtain _ | v := s'
    · simp [eq_comm]
    · by_cases h : w = v <;> simp [h, eq_comm]

end ValueType

namespace ScalarKind

/-- Kinds of numbers, and only those, meet with others than themselves. -/
theorem meet?_eq_some {a b k : ScalarKind} (h : a.meet? b = some k) :
    (a = k ∧ b = k) ∨ (k = .float ∧ a ≠ .bool ∧ b ≠ .bool) := by
  cases a <;> cases b <;> cases h <;> simp

end ScalarKind

/-! ### What operators accept -/

namespace BinaryOp

open ValueType

variable {op : BinaryOp} {a b t : ValueType} {ka kb : ScalarKind}

/-- What an operator accepts: the types of its operands, that of the result, and the types to which
the operands are brought. -/
inductive Takes (op : BinaryOp) :
    ValueType → ValueType → ValueType → ValueType × ValueType → Prop
  | logical (hop : op.isLogical = true) : Takes op .bool .bool .bool (.bool, .bool)
  | compared {ka kb kind : ScalarKind} (hop : op.isComparison = true)
      (met : ka.meet? kb = some kind) :
      Takes op (.scalar ka) (.scalar kb) .bool (.scalar kind, .scalar kind)
  | shifted {ka kb : ScalarKind} {s s' : Option Width} (hop : op.isShift = true)
      (hka : ka.isInteger = true) (hkb : kb.isInteger = true) (widths : s' = none ∨ s' = s) :
      Takes op (shaped ka s) (shaped kb s') (shaped ka s) (shaped ka s, shaped .uint s')
  | bits {k : ScalarKind} {s s' : Option Width} (hop : op.isBitwise = true)
      (hk : k.isInteger = true) (hs : op.isShift = false) (widths : s = none ∨ s' = none ∨ s = s') :
      Takes op (shaped k s) (shaped k s') (shaped k (s.or s')) (shaped k s, shaped k s')
  | numbers {ka kb kind : ScalarKind} {s s' : Option Width} (hop : op.isArithmetic = true)
      (hka : ka ≠ .bool) (hkb : kb ≠ .bool) (met : ka.meet? kb = some kind)
      (widths : s = none ∨ s' = none ∨ s = s') :
      Takes op (shaped ka s) (shaped kb s') (shaped kind (s.or s'))
        (shaped kind s, shaped kind s')
  | matrices (w : Width) (hop : op.isArithmetic = true) :
      Takes op (.matrix w) (.matrix w) (.matrix w) (.matrix w, .matrix w)
  | scaled {k : ScalarKind} (w : Width) (hop : op.isArithmetic = true) (hk : k ≠ .bool) :
      Takes op (.matrix w) (.scalar k) (.matrix w) (.matrix w, .float)
  | scales {k : ScalarKind} (w : Width) (hop : op.isArithmetic = true) (hk : k ≠ .bool) :
      Takes op (.scalar k) (.matrix w) (.matrix w) (.float, .matrix w)
  | transformed {k : ScalarKind} (w : Width) (hop : op.isArithmetic = true) (hk : k ≠ .bool) :
      Takes op (.matrix w) (.vector k w) (.vector .float w) (.matrix w, .vector .float w)
  | transforms {k : ScalarKind} (w : Width) (hop : op.isArithmetic = true) (hk : k ≠ .bool) :
      Takes op (.vector k w) (.matrix w) (.vector .float w) (.vector .float w, .matrix w)

theorem isLogical_of_isComparison (h : op.isComparison = true) : op.isLogical = false := by
  cases op <;> first | rfl | cases h

theorem classes_of_isBitwise (h : op.isBitwise = true) :
    op.isLogical = false ∧ op.isComparison = false := by
  cases op <;> first | exact ⟨rfl, rfl⟩ | cases h

theorem isBitwise_of_isShift (h : op.isShift = true) : op.isBitwise = true := by
  cases op <;> first | rfl | cases h

theorem classes_of_isArithmetic (h : op.isArithmetic = true) :
    op.isLogical = false ∧ op.isComparison = false ∧ op.isShift = false := by
  cases op <;> first | exact ⟨rfl, rfl, rfl⟩ | cases h

/-! ### Types to which the operands are brought -/

theorem operandTypes_logical (hop : op.isLogical = true) : op.operandTypes a b t = (a, b) :=
  if_pos hop

theorem operandTypes_comparison {kind : ScalarKind} (hop : op.isComparison = true)
    (met : ka.meet? kb = some kind) :
    op.operandTypes (.scalar ka) (.scalar kb) t = (.scalar kind, .scalar kind) := by
  unfold operandTypes
  rw [isLogical_of_isComparison hop, if_neg Bool.false_ne_true, if_pos hop]
  simp only [scalarKind, met]
  rfl

theorem operandTypes_shift (hop : op.isShift = true) :
    op.operandTypes a b t = (a, b.recast .uint) := by
  obtain ⟨hl, hc⟩ := classes_of_isBitwise (isBitwise_of_isShift hop)
  unfold operandTypes
  rw [hl, hc, if_neg Bool.false_ne_true, if_neg Bool.false_ne_true, if_pos hop]

/-- The operands of any other operator meet in one kind. -/
theorem operandTypes_number (hl : op.isLogical = false) (hc : op.isComparison = false)
    (hs : op.isShift = false) :
    op.operandTypes a b t =
      recastBoth a b (if a.isMatrix || b.isMatrix then some .float else t.scalarKind) := by
  unfold operandTypes
  rw [hl, hc, hs, if_neg Bool.false_ne_true, if_neg Bool.false_ne_true,
    if_neg Bool.false_ne_true]
  split <;> rfl

/-! ### Rules -/

theorem takes_of_comparison (hop : op.isComparison = true) (ha : a.scalarKind = some ka)
    (hb : b.scalarKind = some kb) (h : op.comparisonType a b ka kb = .ok t) :
    op.Takes a b t (op.operandTypes a b t) := by
  unfold comparisonType at h
  split at h
  · cases h
  · next scalars =>
    obtain ⟨⟨ka, rfl⟩, kb, rfl⟩ : (∃ k, a = .scalar k) ∧ ∃ k, b = .scalar k := by
      simpa using scalars
    cases ha
    cases hb
    have met : ∃ kind, ka.meet? kb = some kind ∧ t = .bool := by
      split at h
      · split at h <;> cases h
        exact ⟨.bool, rfl, rfl⟩
      · cases h
      · cases h
      · split at h
        · next met =>
          cases h
          exact (Option.isSome_iff_exists.1 met).imp fun _ hk => ⟨hk, rfl⟩
        · cases h
    obtain ⟨kind, met, rfl⟩ := met
    rw [operandTypes_comparison hop met]
    exact .compared hop met

theorem takes_of_bitwise (hop : op.isBitwise = true) (ha : a.scalarKind = some ka)
    (hb : b.scalarKind = some kb) (h : op.bitwiseType a b ka kb = .ok t) :
    op.Takes a b t (op.operandTypes a b t) := by
  obtain ⟨hl, hc⟩ := classes_of_isBitwise hop
  unfold bitwiseType at h
  split at h
  · cases h
  · next integers =>
    obtain ⟨⟨⟨am, bm⟩, hka⟩, hkb⟩ :
        ((a.isMatrix = false ∧ b.isMatrix = false) ∧ ka.isInteger = true) ∧
          kb.isInteger = true := by
      simpa only [Bool.or_eq_true, Bool.not_eq_true', not_or, Bool.not_eq_true,
        Bool.not_eq_false] using integers
    obtain ⟨s, rfl⟩ := shaped_of_scalarKind ha am
    obtain ⟨s', rfl⟩ := shaped_of_scalarKind hb bm
    split at h
    · next shift =>
      split at h
      · next width =>
        cases h
        rw [operandTypes_shift shift, recast_shaped]
        exact .shifted shift hka hkb (by simpa [count_inj] using width)
      · cases h
    · next shift =>
      have shift := Bool.eq_false_iff.2 shift
      split at h
      · cases h
      · next same =>
        obtain rfl := Decidable.not_not.1 same
        split at h
        · next met =>
          cases h
          obtain ⟨widths, rfl⟩ := broadcast?_shaped.1 met
          rw [operandTypes_number hl hc shift]
          simp only [isMatrix_shaped, scalarKind_shaped, Bool.or_false, Bool.false_eq_true,
            if_false, recastBoth, recast_shaped]
          exact .bits hop hka shift widths
        · cases h

/-- What a product of a matrix with something else accepts. -/
theorem of_matrixProduct {matrix other : ValueType} {n : UInt32}
    (h : op.matrixProductType matrix other n = .ok t) :
    other.isScalar = true ∧ t = matrix ∨
      other.components = n ∧ ofComponents .float n = some t := by
  unfold matrixProductType at h
  split at h
  · cases h
  · split at h
    · next scalar =>
      cases h
      exact .inl ⟨scalar, rfl⟩
    · split at h
      · next ht =>
        cases h
        split at ht
        · next width => exact .inr ⟨width, ht⟩
        · cases ht
      · cases h

/-- What is multiplied with a matrix is a scalar or a vector of its width. -/
theorem shape_of_matrixProduct {k : ScalarKind} {s : Option Width} {w : Width}
    (h : op.matrixProductType (.matrix w) (shaped k s) (count (some w)) = .ok t) :
    s = none ∧ t = .matrix w ∨ s = some w ∧ t = .vector .float w := by
  obtain ⟨scalar, rfl⟩ | ⟨width, ht⟩ := of_matrixProduct h
  · exact .inl ⟨by simpa using scalar, rfl⟩
  · rw [ofComponents_count] at ht
    exact .inr ⟨count_inj.1 (components_shaped.symm.trans width), (Option.some.inj ht).symm⟩

theorem takes_of_arithmetic (hop : op.isArithmetic = true) (ha : a.scalarKind = some ka)
    (hb : b.scalarKind = some kb) (h : op.arithmeticType a b ka kb = .ok t) :
    op.Takes a b t (op.operandTypes a b t) := by
  obtain ⟨hl, hc, hs⟩ := classes_of_isArithmetic hop
  rw [operandTypes_number hl hc hs]
  unfold arithmeticType at h
  split at h
  · cases h
  · next numeric =>
    obtain ⟨hka, hkb⟩ : ka ≠ .bool ∧ kb ≠ .bool := by simpa using numeric
    split at h
    · cases h
    · next kind met =>
      obtain ⟨s, rfl⟩ | ⟨rfl, w, rfl⟩ := cases_of_scalarKind ha <;>
        obtain ⟨s', rfl⟩ | ⟨rfl, v, rfl⟩ := cases_of_scalarKind hb
      · simp only [columns_shaped] at h
        split at h
        · next common =>
          cases h
          obtain ⟨widths, rfl⟩ := broadcast?_shaped.1 common
          simp only [isMatrix_shaped, scalarKind_shaped, Bool.or_false, Bool.false_eq_true,
            if_false, recastBoth, recast_shaped]
          exact .numbers hop hka hkb met widths
        · cases h
      · simp only [columns_shaped, columns_matrix] at h
        obtain ⟨rfl, rfl⟩ | ⟨rfl, rfl⟩ := shape_of_matrixProduct h
        · exact .scales v hop hka
        · simp only [isMatrix, Bool.or_true, if_true, recastBoth, recast_shaped]
          exact .transforms v hop hka
      · simp only [columns_shaped, columns_matrix] at h
        obtain ⟨rfl, rfl⟩ | ⟨rfl, rfl⟩ := shape_of_matrixProduct h
        · exact .scaled w hop hkb
        · simp only [isMatrix, Bool.true_or, if_true, recastBoth, recast_shaped]
          exact .transformed w hop hkb
      · simp only [columns_matrix] at h
        split at h
        · next fits =>
          cases h
          obtain rfl := Option.some.inj
            (count_inj.1 (of_decide_eq_true (Bool.and_eq_true_iff.1 fits).1))
          exact .matrices w hop
        · cases h

/-- What has a result follows the rules, and its operands are brought to the types that the rules
name. -/
theorem takes_of_typeOf (h : op.typeOf a b = .ok t) : op.Takes a b t (op.operandTypes a b t) := by
  unfold typeOf at h
  split at h
  · next ka kb ha hb =>
    split at h
    · next logical =>
      split at h
      · next both =>
        obtain ⟨rfl, rfl⟩ : a = .bool ∧ b = .bool := by simpa using both
        cases h
        rw [operandTypes_logical logical]
        exact .logical logical
      · cases h
    · next logical =>
      split at h
      · next comparison => exact takes_of_comparison comparison ha hb h
      · next comparison =>
        split at h
        · next bitwise => exact takes_of_bitwise bitwise ha hb h
        · next bitwise =>
          have arithmetic : op.isArithmetic = true := by
            cases op <;> first | rfl | contradiction
          exact takes_of_arithmetic arithmetic ha hb h
  · cases h

theorem takes_of_resultType (h : op.resultType a b = .ok t) :
    op.Takes a b t (op.operandTypes a b t) := by
  unfold resultType at h
  split at h
  · next ht =>
    cases h
    exact takes_of_typeOf ht
  · cases h

end BinaryOp

end ShaderGraph
