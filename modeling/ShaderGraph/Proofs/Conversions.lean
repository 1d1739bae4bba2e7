import ShaderGraph.Code.Conversion
import ShaderGraph.Proofs.Tables

/-!
# What conversions are made of

A conversion puts constructors around an expression, takes components of it and fills up with
literals. So what an expression has, a conversion of it has too, when constructors of types that hold
no struct keep it (`Expr.coerce_induction`, `Expr.convert_induction`).
-/

namespace ShaderGraph

/-- What consists of scalars holds no struct. -/
theorem ValueType.heldStruct?_of_scalarKind {t : ValueType} {k : ScalarKind}
    (h : t.scalarKind = some k) : t.heldStruct? = none := by
  cases t with
  | scalar | vector | matrix => rfl
  | _ => cases h

/-- Constants are of types that hold no struct. -/
theorem heldStruct?_of_constantType {t u : ValueType} {values : List Float}
    (h : constantType t values = .ok u) : t.heldStruct? = none := by
  unfold constantType at h
  split at h
  · cases h
  · next scalars =>
    obtain ⟨k, hk⟩ := Option.ne_none_iff_exists'.1 (Option.isNone_iff_eq_none.not.1 scalars)
    exact t.heldStruct?_of_scalarKind hk

theorem heldStruct?_ofComponents {k : ScalarKind} {n : UInt32} {t : ValueType}
    (h : ValueType.ofComponents k n = some t) : t.heldStruct? = none := by
  unfold ValueType.ofComponents at h
  split at h
  · cases h
    rfl
  · obtain ⟨w, -, rfl⟩ := Option.map_eq_some_iff.1 h
    rfl

/-- What is joined is a vector. -/
theorem heldStruct?_of_joinType {ts : List ValueType} {explicit : Option ValueType} {t : ValueType}
    (h : joinType ts explicit = .ok t) : t.heldStruct? = none := by
  unfold joinType at h
  dsimp only at h
  split at h
  · cases h
  cases explicit with
  | some e =>
    dsimp only at h
    split at h
    · cases h
    · next vector =>
      cases h
      cases t with
      | vector => rfl
      | _ => simp [ValueType.isVector] at vector
  | none =>
    dsimp only at h
    split at h
    · cases h
    · split at h
      · next found =>
        cases h
        split at found
        · cases found
        · exact heldStruct?_ofComponents found
      · cases h

/-- A type of other scalars holds no struct either. -/
theorem ValueType.heldStruct?_recast {t : ValueType} (ht : t.heldStruct? = none) (k : ScalarKind) :
    (t.recast k).heldStruct? = none := by
  unfold ValueType.recast ValueType.withKind?
  split
  · split <;> exact ht
  · unfold ValueType.ofComponents
    split
    · rfl
    · cases Width.ofNat? t.components.toNat with
      | none => exact ht
      | some w => rfl

namespace Expr

variable {P : Expr → Prop} {e e' : Expr} {source target : ValueType}

section

variable (construct : ∀ type args, type.heldStruct? = none → (∀ a ∈ args, P a) →
  P (.construct type args))

include construct

theorem castScalar_induction (h : P e) (k l : ScalarKind) : P (e.castScalar k l) := by
  unfold castScalar
  split
  · exact h
  · exact construct _ _ rfl (List.forall_mem_singleton.2 h)

/-- What an expression has and constructors keep, an implicit conversion has. -/
theorem coerce_induction (h : P e) (he : e.coerce source target = .ok e') : P e' := by
  unfold coerce at he
  split at he
  · cases he
    exact h
  split at he
  · next k l _ hl =>
    have held : target.heldStruct? = none := ValueType.heldStruct?_of_scalarKind hl
    split at he
    · cases he
    split at he
    · split at he
      · cases he
        exact castScalar_induction construct h k l
      · cases he
        exact construct _ _ held (List.forall_mem_singleton.2 (castScalar_induction construct h k l))
    · split at he
      · cases he
        exact construct _ _ held (List.forall_mem_singleton.2 h)
      · cases he
  · cases he

/-- What an expression and literals have, and constructors and swizzles keep, an explicit conversion
has. -/
theorem convert_induction (swizzle : ∀ e cs, P e → P (.swizzle e cs))
    (literal : ∀ kind v, P (.literal kind v)) (h : P e) (he : e.convert source target = .ok e') :
    P e' := by
  unfold convert at he
  split at he
  · cases he
    exact h
  split at he
  · cases he
  split at he
  · next k l hk hl =>
    have held : target.heldStruct? = none := ValueType.heldStruct?_of_scalarKind hl
    have recast := ValueType.heldStruct?_recast (ValueType.heldStruct?_of_scalarKind hk) l
    dsimp only at he
    have cast : P (if k = l then e else .construct (source.recast l) [e]) := by
      split
      · exact h
      · exact construct _ _ recast (List.forall_mem_singleton.2 h)
    split at he
    · cases he
      exact cast
    split at he
    · cases he
      exact construct _ _ held (List.forall_mem_singleton.2 cast)
    split at he
    · cases he
      exact swizzle _ _ cast
    · cases he
      refine construct _ _ held (List.forall_mem_cons.2 ⟨cast, fun a ha => ?_⟩)
      obtain ⟨i, -, rfl⟩ := List.mem_map.1 ha
      exact literal _ _
  · cases he

end

end Expr

end ShaderGraph
