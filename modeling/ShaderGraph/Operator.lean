import ShaderGraph.Text.Blank

/-!
# Operators

Binary and unary operators, their symbols and their classes.

* `BinaryOp.symbol` is how an operator is written in both dialects.
* `BinaryOp.read?` reads a symbol or a spelled-out name.
* `isArithmetic`, `isComparison`, `isLogical` and `isBitwise` cut the operators into four
  classes; `classes_cover` says that each operator is in exactly one.
-/

namespace ShaderGraph

/-- An operator with two operands. -/
inductive BinaryOp where
  | add | sub | mul | div | rem
  | eq | ne | lt | le | gt | ge
  | and | or
  | bitAnd | bitOr | bitXor | shl | shr
deriving DecidableEq, Repr

namespace BinaryOp

/-- Every operator, by class. -/
def all : List BinaryOp :=
  [add, sub, mul, div, rem, eq, ne, lt, le, gt, ge, and, or, bitAnd, bitOr, bitXor, shl, shr]

/-- The symbol of an operator, the same in both dialects. -/
def symbol : BinaryOp → String
  | add => "+"
  | sub => "-"
  | mul => "*"
  | div => "/"
  | rem => "%"
  | eq => "=="
  | ne => "!="
  | lt => "<"
  | le => "<="
  | gt => ">"
  | ge => ">="
  | and => "&&"
  | or => "||"
  | bitAnd => "&"
  | bitOr => "|"
  | bitXor => "^"
  | shl => "<<"
  | shr => ">>"

/-- The name of an operator. -/
def name : BinaryOp → String
  | add => "add"
  | sub => "sub"
  | mul => "mul"
  | div => "div"
  | rem => "rem"
  | eq => "eq"
  | ne => "ne"
  | lt => "lt"
  | le => "le"
  | gt => "gt"
  | ge => "ge"
  | and => "and"
  | or => "or"
  | bitAnd => "bitAnd"
  | bitOr => "bitOr"
  | bitXor => "bitXor"
  | shl => "shl"
  | shr => "shr"

/-- The operator with the given name. -/
def ofName? (s : String) : Option BinaryOp := all.find? fun op => op.name = s

/-- The spelled-out names that documents may use in place of a symbol. -/
def spelledOut : List (String × BinaryOp) :=
  [("add", add), ("sub", sub), ("mul", mul), ("div", div), ("rem", rem), ("mod", rem),
   ("equal", eq), ("notEqual", ne), ("lessThan", lt), ("lessThanEqual", le),
   ("greaterThan", gt), ("greaterThanEqual", ge), ("and", and), ("or", or),
   ("bitAnd", bitAnd), ("bitOr", bitOr), ("bitXor", bitXor), ("shiftLeft", shl),
   ("shiftRight", shr)]

/-- Reads a symbol or a spelled-out name; blanks around it do not matter. -/
def read? (s : String) : Option BinaryOp :=
  let t := String.ofList (Text.trim s.toList)
  match all.find? fun op => op.symbol = t with
  | some op => some op
  | none => spelledOut.lookup t

/-- Sums, differences, products, quotients and remainders. -/
def isArithmetic : BinaryOp → Bool
  | add | sub | mul | div | rem => true
  | _ => false

/-- The six comparisons. -/
def isComparison : BinaryOp → Bool
  | eq | ne | lt | le | gt | ge => true
  | _ => false

/-- Conjunction and disjunction. -/
def isLogical : BinaryOp → Bool
  | and | or => true
  | _ => false

/-- Operations on the bits of integers. -/
def isBitwise : BinaryOp → Bool
  | bitAnd | bitOr | bitXor | shl | shr => true
  | _ => false

/-- The two shifts. -/
def isShift : BinaryOp → Bool
  | shl | shr => true
  | _ => false

theorem mem_all (op : BinaryOp) : op ∈ all := by cases op <;> decide

/-- Each operator is in exactly one class. -/
theorem classes_cover (op : BinaryOp) :
    [op.isArithmetic, op.isComparison, op.isLogical, op.isBitwise].count true = 1 := by
  cases op <;> rfl

end BinaryOp

/-- An operator with one operand. -/
inductive UnaryOp where
  | neg
  | not
  | bitNot
deriving DecidableEq, Repr

namespace UnaryOp

/-- The name of an operator. -/
def name : UnaryOp → String
  | .neg => "neg"
  | .not => "not"
  | .bitNot => "bitNot"

/-- The operator with the given name. -/
def ofName? (s : String) : Option UnaryOp := [neg, not, bitNot].find? fun op => op.name = s

/-- The name of an operator as messages write it. -/
def title : UnaryOp → String
  | .neg => "Neg"
  | .not => "Not"
  | .bitNot => "BitNot"

/-- The symbol of an operator, the same in both dialects. -/
def symbol : UnaryOp → String
  | .neg => "-"
  | .not => "!"
  | .bitNot => "~"

end UnaryOp

end ShaderGraph
