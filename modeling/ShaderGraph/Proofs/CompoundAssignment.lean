import ShaderGraph.Proofs.Collections
import ShaderGraph.Proofs.OperandTypes
import ShaderGraph.Proofs.VariablesBuild

/-!
# Compound assignments

An assignment `target op= value` beside the assignment of the sum, product or other value that
an operator node makes of the target and the value.

`BinaryOp.combined` is the code of an operator on operands that were brought to their types;
`combined_of_buildOperator` says that an operator node makes it. `Statement.spelledOut` writes an
update out as an assignment. For every compound assignment that is accepted, the statement written
out assigns what the operator makes of the place and the value (`compound_assignment`). It is one of
the ten updates that both languages have, or the remainder of floats, unless the operator is a
logical one or a comparison; and the value is brought to the type that the operator asks for, unless
a matrix is multiplied by a whole number.
-/

namespace ShaderGraph

/-- The signed and the unsigned whole numbers. -/
def ValueType.isWhole : ValueType → Bool
  | .int | .uint => true
  | _ => false

namespace BinaryOp

open ValueType

/-- The code of an operator with a result of type `result` on operands of the right types. -/
def combined (op : BinaryOp) (result : ValueType) (left right : Expr) : Expr :=
  if op = .rem && result.scalarKind = some .float then .remainder left right
  else .operator op left right

/-- The updates that both languages have. -/
def updateSymbols : List String := ["+=", "-=", "*=", "/=", "%=", "&=", "|=", "^=", "<<=", ">>="]

/-- Whether the languages combine an operator with an assignment. -/
def hasUpdate (op : BinaryOp) : Bool := updateSymbols.contains (op.symbol ++ "=")

theorem hasUpdate_eq (op : BinaryOp) : op.hasUpdate = !(op.isLogical || op.isComparison) := by
  cases op <;> decide

/-! ### Operands of an operator that keeps the type of the place -/

variable {op : BinaryOp} {a b t : ValueType} {l : ScalarKind} {targets : ValueType × ValueType}

/-- Only bools are compared with a place that keeps its type. -/
theorem bools_of_meet {k kind : ScalarKind} (met : ScalarKind.bool.meet? k = some kind) :
    k = .bool ∧ kind = .bool := by
  obtain ⟨rfl, rfl⟩ | ⟨-, hbool, -⟩ := ScalarKind.meet?_eq_some met
  · exact ⟨rfl, rfl⟩
  · exact absurd rfl hbool

/-- The place is an operand as it stands. -/
theorem Takes.left_eq (h : op.Takes a b t targets) (keeps : t = a) : targets.1 = a := by
  cases h with
  | compared hop met =>
    cases keeps
    exact congrArg ValueType.scalar (bools_of_meet met).2
  | numbers hop hka hkb met widths =>
    obtain ⟨rfl, -⟩ := shaped_inj.1 keeps
    rfl
  | scales w hop hk => cases keeps
  | transforms w hop hk => exact keeps
  | _ => rfl

theorem updateOperand_shift (hop : op.isShift = true) : op.updateOperand a b = b.recast .uint :=
  if_pos hop

theorem updateOperand_shaped {k : ScalarKind} {s s' : Option Width} (hop : op.isShift = false) :
    op.updateOperand (shaped k s) (shaped l s') = shaped k s' := by
  simp [updateOperand, hop]

theorem updateOperand_matrix (hop : op.isShift = false)
    (h : (a.isMatrix || b.isMatrix) = true) : op.updateOperand a b = b := by
  simp only [updateOperand, hop, h, Bool.false_eq_true, if_false, if_true]

theorem updateOperand_bool (hop : (op.isLogical || op.isComparison) = true) :
    op.updateOperand .bool .bool = .bool := by
  cases op <;> first | rfl | cases hop

/-- The value is brought to the type that the operator asks for, unless a matrix is multiplied by
a whole number. -/
theorem Takes.updateOperand_iff (h : op.Takes a b t targets) (keeps : t = a) :
    op.updateOperand a b = targets.2 ↔ ¬(a.isMatrix = true ∧ b.isWhole = true) := by
  cases h with
  | logical hop =>
    rw [updateOperand_bool (Bool.or_eq_true_iff.2 (.inl hop))]
    exact iff_of_true rfl (by decide)
  | compared hop met =>
    cases keeps
    obtain ⟨rfl, rfl⟩ := bools_of_meet met
    rw [updateOperand_bool (Bool.or_eq_true_iff.2 (.inr hop))]
    exact iff_of_true rfl (by decide)
  | shifted hop hka hkb widths =>
    rw [updateOperand_shift hop, recast_shaped]
    exact iff_of_true rfl (by simp)
  | bits hop hk hs widths =>
    rw [updateOperand_shaped hs]
    exact iff_of_true rfl (by simp)
  | numbers hop hka hkb met widths =>
    obtain ⟨rfl, -⟩ := shaped_inj.1 keeps
    rw [updateOperand_shaped (classes_of_isArithmetic hop).2.2]
    exact iff_of_true rfl (by simp)
  | matrices w hop =>
    rw [updateOperand_matrix (classes_of_isArithmetic hop).2.2 rfl]
    exact iff_of_true rfl (by simp [isWhole])
  | @scaled k w hop hk =>
    rw [updateOperand_matrix (classes_of_isArithmetic hop).2.2 rfl]
    -- a whole number is left as it is
    cases k with
    | bool => exact absurd rfl hk
    | float => exact iff_of_true rfl (by simp [isWhole])
    | int => simp [isWhole, isMatrix]
    | uint => simp [isWhole, isMatrix]
  | scales w hop hk => cases keeps
  | transformed w hop hk => cases keeps
  | transforms w hop hk =>
    rw [updateOperand_matrix (classes_of_isArithmetic hop).2.2 rfl]
    exact iff_of_true rfl (by simp [isWhole])

theorem Takes.scalarKind_left (h : op.Takes a b t targets) : ∃ k, a.scalarKind = some k := by
  cases h <;> exact ⟨_, by first | rfl | exact scalarKind_shaped⟩

end BinaryOp

/-! ### Statements -/

namespace Statement

/-- An update written out as the assignment of what its operator makes. -/
def spelledOut : Statement → Statement
  | .update place op value => .assign place (.operator op place value)
  | st => st

/-- An update that both languages have, or the assignment of a remainder of floats. -/
inductive Compound (op : BinaryOp) (place value : Expr) : Statement → Prop
  | update (hop : op.hasUpdate = true) : Compound op place value (.update place op value)
  | remainder (hop : op = .rem) : Compound op place value (.assign place (.remainder place value))

/-- What is said of the statement `st` that combines the operator `op` with an assignment of a value
of type `t` to a place of type `type`, where the value was brought to the type that updates ask
for. -/
structure Updates (op : BinaryOp) (place : Expr) (type : ValueType) (value : Expr) (t : ValueType)
    (st : Statement) : Prop where
  /-- The operator keeps the type of the place. -/
  keeps : op.resultType type t = .ok type
  /-- The statement assigns what the operator makes of the place and the value. -/
  spelled : st.spelledOut = .assign place (op.combined type place value)
  /-- The operator asks for the place as it stands. -/
  stands : (op.operandTypes type t type).1 = type
  written_iff : st.Compound op place value ↔ (op.isLogical || op.isComparison) = false
  /-- The operator asks for the value in the type that it was brought to. -/
  brought_iff : op.updateOperand type t = (op.operandTypes type t type).2 ↔
    ¬(type.isMatrix = true ∧ t.isWhole = true)

end Statement

namespace Build

open Statement

variable {g : Generator} {op : BinaryOp} {left right target value : NodeId} {env : Env}
  {s s' : BuildState} {e place : Expr} {type t : ValueType} {st : Statement}

/-- An operator node brings its operands to the types that the operator asks for and combines
them. -/
theorem combined_of_buildOperator (h : buildOperator g op left right env s = .ok (e, s')) :
    ∃ a s₁ b s₂ result l s₃ r, typeOf left env s = .ok (a, s₁) ∧
      typeOf right env s₁ = .ok (b, s₂) ∧ op.resultType a b = .ok result ∧
      g.value left (op.operandTypes a b result).1 env s₂ = .ok (l, s₃) ∧
      g.value right (op.operandTypes a b result).2 env s₃ = .ok (r, s') ∧
      e = op.combined result l r := by
  unfold buildOperator at h
  obtain ⟨a, s₁, ha, h⟩ := of_bind h
  obtain ⟨b, s₂, hb, h⟩ := of_bind h
  obtain ⟨result, hresult, h⟩ := of_ofExcept h
  obtain ⟨l, s₃, hl, h⟩ := of_bind h
  obtain ⟨r, s₄, hr, h⟩ := of_bind h
  refine ⟨a, s₁, b, s₂, result, l, s₃, r, ha, hb, hresult, hl, ?_⟩
  unfold BinaryOp.combined
  split at h
  · next rem =>
    cases h
    exact ⟨hr, (if_pos rem).symm⟩
  · next rem =>
    cases h
    exact ⟨hr, (if_neg rem).symm⟩

theorem of_buildUpdate (h : buildUpdate g place type op value env s = .ok (st, s')) :
    ∃ t s₁ e, typeOf value env s = .ok (t, s₁) ∧
      g.value value (op.updateOperand type t) env s₁ = .ok (e, s') ∧
      st.Updates op place type e t := by
  unfold buildUpdate at h
  obtain ⟨t, s₁, ht, h⟩ := of_bind h
  obtain ⟨result, hresult, h⟩ := of_ofExcept h
  by_cases keeps : result = type
  · rw [if_neg (not_not.2 keeps)] at h
    obtain rfl := keeps
    obtain ⟨e, s₂, he, h⟩ := of_bind h
    have takes := BinaryOp.takes_of_resultType hresult
    obtain ⟨k, hk⟩ := takes.scalarKind_left
    have remainder : (result.scalarKind.getD .float = .float) ↔ result.scalarKind = some .float := by
      simp [hk]
    have written := BinaryOp.hasUpdate_eq op
    split at h
    · next rem =>
      cases h
      obtain ⟨rfl, hfloat⟩ : op = .rem ∧ result.scalarKind.getD .float = .float := by
        simpa using rem
      refine ⟨t, s₁, e, ht, he, hresult, ?_, takes.left_eq rfl, ?_, takes.updateOperand_iff rfl⟩
      · simp [spelledOut, BinaryOp.combined, remainder.1 hfloat]
      · exact iff_of_true (.remainder rfl) rfl
    · next rem =>
      cases h
      refine ⟨t, s₁, e, ht, he, hresult, ?_, takes.left_eq rfl, ?_, takes.updateOperand_iff rfl⟩
      · simp only [spelledOut, BinaryOp.combined]
        rw [if_neg]
        simpa [remainder] using rem
      · constructor
        · rintro (hop | _)
          simpa [written] using hop
        · exact fun hop => .update (by rw [written, hop]; rfl)
  · rw [if_pos keeps] at h
    obtain ⟨_, _, failed, _⟩ := of_bind h
    cases failed

/-- A compound assignment that is accepted adds one statement, which says that the place becomes
what its operator makes of the place and the value. -/
theorem compound_assignment (h : buildAssign g target value (some op) env s = .ok ((), s')) :
    ∃ place type s₁ t s₂ e s₃ st, g.place target env s = .ok ((place, type), s₁) ∧
      typeOf value env s₁ = .ok (t, s₂) ∧
      g.value value (op.updateOperand type t) env s₂ = .ok (e, s₃) ∧
      addStatement st env s₃ = .ok ((), s') ∧ st.Updates op place type e t := by
  unfold buildAssign at h
  obtain ⟨⟨place, type⟩, s₁, hplace, h⟩ := of_bind h
  obtain ⟨st, s₃, hst, h⟩ := of_bind h
  obtain ⟨t, s₂, e, ht, he, updates⟩ := of_buildUpdate hst
  exact ⟨place, type, s₁, t, s₂, e, s₃, st, hplace, ht, he, h, updates⟩

/-- A variable that grows by one. -/
def raised : Graph := .ofNodes
  [.const .float [1], .var ⟨0⟩ (some "acc") false, .assign ⟨1⟩ ⟨0⟩ (some .add)]

/-- A float that grows by one is updated by the sum. -/
theorem raised_updates : ∃ s' place type t e, ∃ st : Statement,
    buildAssign (generator 8) ⟨1⟩ ⟨0⟩ (some .add) (fragmentOf raised)
      (.start (.ofGraph raised .standard)) = .ok ((), s') ∧
      st.Updates .add place type e t ∧ st.Compound .add place e := by
  have accepted : (buildAssign (generator 8) ⟨1⟩ ⟨0⟩ (some .add) (fragmentOf raised)
      (.start (.ofGraph raised .standard))).isOk = true := by decide +kernel
  obtain ⟨⟨_, s'⟩, h⟩ := ok_of_isOk accepted
  obtain ⟨place, type, -, t, -, e, -, st, -, -, -, -, updates⟩ := compound_assignment h
  exact ⟨s', place, type, t, e, st, h, updates, updates.written_iff.2 rfl⟩

/-- A matrix that is scaled in place by the whole number 2. -/
def scaled : Graph := .ofNodes
  [.const (.matrix .two) [1], .var ⟨0⟩ (some "m") false, .const .int [2],
    .assign ⟨1⟩ ⟨2⟩ (some .mul), .const .vec4 [0], .stack [⟨3⟩] (some ⟨4⟩)]

/-- Whether a variable `m` is scaled by a whole number behind its declaration. -/
def scalesByInt : List Statement → Bool
  | [_, .update (.reference (.local name)) .mul (.literal .int _)] => name == "m"
  | _ => false

theorem of_scalesByInt {ss : List Statement} (h : scalesByInt ss = true) :
    ∃ declaration value, ss = [declaration, .update (localName "m") .mul (.literal .int value)] := by
  unfold scalesByInt at h
  split at h
  · next declaration name value =>
    obtain rfl := eq_of_beq h
    exact ⟨declaration, value, rfl⟩
  · cases h

/-- A whole number that scales a matrix in place stays a whole number, although the operator asks for
a float. -/
theorem scaled_not_brought :
    (build scaled ⟨none, some ⟨5⟩, none⟩ .standard).isOk = true ∧
      ∃ s, run (.ofGraph scaled .standard) [(.fragment, ⟨5⟩)] = .ok s ∧
        (∃ declaration value, (s.stages.get .fragment).outer.statements =
          [declaration, .update (localName "m") .mul (.literal .int value)]) ∧
        BinaryOp.mul.resultType (.matrix .two) .int = .ok (.matrix .two) ∧
        (BinaryOp.mul.operandTypes (.matrix .two) .int (.matrix .two)).2 = .float := by
  have updated : leaves (fun s => scalesByInt (s.stages.get .fragment).outer.statements)
      (run (.ofGraph scaled .standard) [(.fragment, ⟨5⟩)]) = true := by
    decide +kernel
  obtain ⟨s, hs, statements⟩ := of_leaves updated
  exact ⟨by decide +kernel, s, hs, of_scalesByInt statements, rfl, rfl⟩

end Build

end ShaderGraph
