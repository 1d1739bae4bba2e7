import ShaderGraph.Error.Cause

/-!
# Types of operators

* `BinaryOp.resultType` is the type of `a op b`; `BinaryOp.operandTypes` are the types to which
  the operands are brought first.
* `UnaryOp.resultType` is the type of `op a`.

Scalars combine with vectors component by component. Floats absorb whole numbers; signed and
unsigned ones do not mix.
-/

namespace ShaderGraph

namespace ScalarKind

/-- The kind in which two kinds of numbers meet. -/
def meet? (a b : ScalarKind) : Option ScalarKind :=
  if a = b then some a
  else match a, b with
    | .float, .int | .float, .uint | .int, .float | .uint, .float => some .float
    | _, _ => none

end ScalarKind

namespace ValueType

/-- The component-wise type of two scalars or vectors: equal widths meet, and a scalar meets
any width. -/
def broadcast? (a b : ValueType) (kind : ScalarKind) : Option ValueType :=
  if a.components = 1 then ofComponents kind b.components
  else if b.components = 1 then ofComponents kind a.components
  else if a.components = b.components then ofComponents kind a.components
  else none

/-- The type with another kind of scalars, or the type itself where there is none. -/
def recast (t : ValueType) (kind : ScalarKind) : ValueType := (t.withKind? kind).getD t

end ValueType

namespace BinaryOp

/-- The type of a comparison. -/
def comparisonType (op : BinaryOp) (a b : ValueType) (ka kb : ScalarKind) :
    Except OperandFault ValueType :=
  if !a.isScalar || !b.isScalar then .error .notScalars
  else match ka, kb with
    | .bool, .bool => if op = .eq || op = .ne then .ok .bool else .error .boolOrder
    | .bool, _ | _, .bool => .error .boolOrder
    | ka, kb => if (ka.meet? kb).isSome then .ok .bool else .error .intWithUint

/-- The type of an operation on bits. A shifted value keeps its type. -/
def bitwiseType (op : BinaryOp) (a b : ValueType) (ka kb : ScalarKind) :
    Except OperandFault ValueType :=
  if a.isMatrix || b.isMatrix || !ka.isInteger || !kb.isInteger then .error .notIntegers
  else if op.isShift then
    if b.isScalar || b.components = a.components then .ok a else .error .shiftWidth
  else if ka ≠ kb then .error .intWithUint
  else match a.broadcast? b ka with
    | some t => .ok t
    | none => .error .widths

/-- The type of a product of a matrix with `n` columns and something else. -/
def matrixProductType (op : BinaryOp) (matrix other : ValueType) (n : UInt32) :
    Except OperandFault ValueType :=
  if op ≠ .mul then .error .matrixWithOther
  else if other.isScalar then .ok matrix
  else match if other.components = n then ValueType.ofComponents .float n else none with
    | some t => .ok t
    | none => .error .matrixSize

/-- The type of a sum, difference, product, quotient or remainder. -/
def arithmeticType (op : BinaryOp) (a b : ValueType) (ka kb : ScalarKind) :
    Except OperandFault ValueType :=
  if ka = .bool || kb = .bool then .error .boolArithmetic
  else match ka.meet? kb with
    | none => .error .intWithUint
    | some kind =>
      match a.columns, b.columns with
      | some n, some m =>
        if n = m && (op = .add || op = .sub || op = .mul) then .ok a else .error .matrices
      | some n, none => op.matrixProductType a b n
      | none, some n => op.matrixProductType b a n
      | none, none =>
        match a.broadcast? b kind with
        | some t => .ok t
        | none => .error .widths

/-- The type of `a op b`, or why there is none. -/
def typeOf (op : BinaryOp) (a b : ValueType) : Except OperandFault ValueType :=
  match a.scalarKind, b.scalarKind with
  | some ka, some kb =>
    if op.isLogical then
      if a = .bool && b = .bool then .ok .bool else .error .notBool
    else if op.isComparison then op.comparisonType a b ka kb
    else if op.isBitwise then op.bitwiseType a b ka kb
    else op.arithmeticType a b ka kb
  | _, _ => .error .notNumbers

/-- The type of `a op b`. -/
def resultType (op : BinaryOp) (a b : ValueType) : Except TypeError ValueType :=
  match op.typeOf a b with
  | .ok t => .ok t
  | .error fault => .error (.operator op a b fault)

/-- Both operands brought to a kind. -/
def recastBoth (a b : ValueType) : Option ScalarKind → ValueType × ValueType
  | some kind => (a.recast kind, b.recast kind)
  | none => (a, b)

/-- The types to which the operands of `a op b`, of type `result`, are brought. -/
def operandTypes (op : BinaryOp) (a b result : ValueType) : ValueType × ValueType :=
  if op.isLogical then (a, b)
  else if op.isComparison then
    match a.scalarKind, b.scalarKind with
    | some ka, some kb => recastBoth a b (ka.meet? kb)
    | _, _ => (a, b)
  else if op.isShift then (a, b.recast .uint)
  else if a.isMatrix || b.isMatrix then recastBoth a b (some .float)
  else recastBoth a b result.scalarKind

/-- The type to which the value of a compound assignment to a place of type `place` is
brought. -/
def updateOperand (op : BinaryOp) (place value : ValueType) : ValueType :=
  if op.isShift then value.recast .uint
  else if place.isMatrix || value.isMatrix then value
  else value.recast (place.scalarKind.getD .float)

end BinaryOp

/-- Whether the operator applies to values of a type. -/
def UnaryOp.applies (op : UnaryOp) (a : ValueType) : Bool :=
  match op with
  | .neg => a.scalarKind == some .float || a.scalarKind == some .int
  | .not => a == .bool
  | .bitNot => !a.isMatrix && (a.scalarKind.map ScalarKind.isInteger).getD false

/-- The type of `op a`. -/
def UnaryOp.resultType (op : UnaryOp) (a : ValueType) : Except TypeError ValueType :=
  if op.applies a then .ok a else .error (.unary op a)

/-! ### Small facts -/

theorem UnaryOp.resultType_eq {op : UnaryOp} {a t : ValueType} (h : op.resultType a = .ok t) :
    t = a := by
  unfold resultType at h
  split at h <;> simp_all

end ShaderGraph
