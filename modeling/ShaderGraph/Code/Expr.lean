import ShaderGraph.Dialect.Spelling

/-!
# Expressions of generated code

* `Expr` is an expression of the generated code; what it refers to is told apart by kind, so
  that the scope of a name can be stated.
* `Expr.text` is its text in a dialect. Operators stand in parentheses, so that an expression
  keeps its meaning wherever its text is put.
-/

namespace ShaderGraph

/-- A component of a vector. -/
inductive Component where
  | x
  | y
  | z
  | w
deriving DecidableEq, Repr

namespace Component

/-- The letter of a component. -/
def letter : Component → Char
  | x => 'x'
  | y => 'y'
  | z => 'z'
  | w => 'w'

/-- The place of a component. -/
def index : Component → Nat
  | x => 0
  | y => 1
  | z => 2
  | w => 3

/-- The components in order. -/
def all : List Component := [x, y, z, w]

/-- The letters of some components. -/
def letters (cs : List Component) : String := String.ofList (cs.map letter)

end Component

/-- What a name in the generated code stands for. -/
inductive Reference where
  /-- A variable of the entry point. -/
  | local (name : String)
  /-- A member of a uniform block. -/
  | uniform (inst member : String)
  | meshAttribute (name : String)
  /-- A varying as the given stage sees it. -/
  | varying (stage : Stage) (name : String)
  | builtin (value : Builtin)
  | storage (name : String)
deriving DecidableEq, Repr

/-- The text of a reference. -/
def Reference.text (d : Dialect) : Reference → String
  | .local name | .meshAttribute name | .storage name => name
  | .uniform inst member => d.uniformMember inst member
  | .varying stage name => d.varying stage name
  | .builtin b => d.builtin b

/-- An expression of the generated code. -/
inductive Expr where
  | literal (kind : ScalarKind) (value : Float)
  | reference (r : Reference)
  /-- A value of a type made from others. -/
  | construct (type : ValueType) (args : List Expr)
  | operator (op : BinaryOp) (left right : Expr)
  /-- The remainder of floats. -/
  | remainder (left right : Expr)
  | unary (op : UnaryOp) (operand : Expr)
  | math (method : MathMethod) (args : List Expr)
  | call (function : String) (args : List Expr)
  | select (condition whenTrue whenFalse : Expr)
  | sample (texture sampler : String) (uv : Expr) (level : Option Expr)
  | swizzle (base : Expr) (components : List Component)
  | member (base : Expr) (name : String)
  | index (base i : Expr)
  /-- A place handed to a function that writes to it. -/
  | address (place : Expr)

instance : Inhabited Expr := ⟨.literal .float 0⟩

namespace Expr

/-- The text of a unary operator. A symbol before its own like is kept apart from it, since
two minus signs in a row are a decrement. -/
def unaryText (op : UnaryOp) (operand : String) : String :=
  if op.symbol.toList.isPrefixOf operand.toList then
    "(" ++ op.symbol ++ "(" ++ operand ++ "))"
  else "(" ++ op.symbol ++ operand ++ ")"

mutual

/-- The text of an expression. -/
def text (d : Dialect) : Expr → String
  | literal kind value => Dialect.literal kind value
  | reference r => r.text d
  | construct type args => Dialect.constructor (d.spelling type) (texts d args)
  | operator op left right => "(" ++ left.text d ++ " " ++ op.symbol ++ " " ++ right.text d ++ ")"
  | remainder left right => d.floatRemainder (left.text d) (right.text d)
  | unary op operand => unaryText op (operand.text d)
  | math method args => d.mathCall method (texts d args)
  | call function args => function ++ Dialect.arguments (texts d args)
  | select condition whenTrue whenFalse =>
    d.select (condition.text d) (whenTrue.text d) (whenFalse.text d)
  | sample texture sampler uv level => d.sample texture sampler (uv.text d) (optionText d level)
  | swizzle base components => base.text d ++ "." ++ Component.letters components
  | member base name => base.text d ++ "." ++ name
  | index base i => base.text d ++ "[" ++ i.text d ++ "]"
  | address place => d.address (place.text d)

/-- The texts of some expressions. -/
def texts (d : Dialect) : List Expr → List String
  | [] => []
  | e :: rest => e.text d :: texts d rest

/-- The text of an expression, if there is one. -/
def optionText (d : Dialect) : Option Expr → Option String
  | none => none
  | some e => some (e.text d)

end

theorem texts_eq_map (d : Dialect) (es : List Expr) : texts d es = es.map (text d) := by
  induction es with
  | nil => simp [texts]
  | cons e es ih => simp [texts, ih]

end Expr

end ShaderGraph
