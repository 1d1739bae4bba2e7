import ShaderGraph.Cache
import ShaderGraph.Code.Expr
import ShaderGraph.Text.Lines

/-!
# Statements of generated code

* `Statement` is a statement of the generated code; branches and loops hold the statements of
  their blocks, so the tree shows which declaration encloses which use.
* `Statement.lines` writes a statement in a dialect, a block one step further to the right
  than the lines around it.
-/

namespace ShaderGraph

/-- A statement of the generated code. -/
inductive Statement where
  /-- The declaration of a local; `owner` is where a variable node keeps its name. -/
  | declare (name : String) (type : ValueType) (init : Option Expr) (mutability : Mutability)
      (owner : Option CacheKey)
  | assign (place value : Expr)
  /-- An assignment combined with an operator. -/
  | update (place : Expr) (op : BinaryOp) (value : Expr)
  /-- A call whose result does not exist. -/
  | call (function : String) (args : List Expr)
  | jump (jump : Jump)
  | branch (condition : Expr) (thenBody : List Statement) (elseBody : Option (List Statement))
  /-- Counts from `start` by `step`, up or down as the comparison with `stop` goes. -/
  | loop (counter : String) (type : ValueType) (start : Expr) (condition : BinaryOp)
      (stop : Expr) (step : Float) (body : List Statement)

namespace Statement

/-- Whether a loop with this condition counts down. -/
def descends : BinaryOp → Bool
  | .gt | .ge => true
  | _ => false

/-- How a counter moves on. Whole numbers that move by one have a text of their own. -/
def stepText (counter : String) (type : ValueType) (condition : BinaryOp) (step : Float) :
    String :=
  let kind := type.scalarKind.getD .float
  if kind ≠ .float ∧ step == 1 then counter ++ if descends condition then "--" else "++"
  else
    counter ++ (if descends condition then " -= " else " += ") ++ Dialect.literal kind step

/-- A line of a block, one step to the right. -/
def inner (line : String) : String := Text.indentation 1 ++ line

mutual

/-- The lines of a statement. -/
def lines (d : Dialect) : Statement → List String
  | declare name type init m _ =>
    [d.declaration name (d.spelling type) (init.map (Expr.text d)) m]
  | assign place value => [place.text d ++ " = " ++ value.text d ++ ";"]
  | update place op value =>
    [place.text d ++ " " ++ op.symbol ++ "= " ++ value.text d ++ ";"]
  | call function args => [function ++ Dialect.arguments (Expr.texts d args) ++ ";"]
  | jump j => [j.keyword ++ ";"]
  | branch condition thenBody elseBody =>
    ("if (" ++ condition.text d ++ ") \x7b") :: (blockLines d thenBody).map inner ++
      elseLines d elseBody
  | loop counter type start condition stop step body =>
    d.loopHeader counter (d.spelling type) (start.text d)
        (counter ++ " " ++ condition.symbol ++ " " ++ stop.text d)
        (stepText counter type condition step) ::
      (blockLines d body).map inner ++ ["\x7d"]

/-- The lines of the statements of a block. -/
def blockLines (d : Dialect) : List Statement → List String
  | [] => []
  | s :: rest => s.lines d ++ blockLines d rest

/-- The lines from the end of the first branch on. -/
def elseLines (d : Dialect) : Option (List Statement) → List String
  | none => ["\x7d"]
  | some body => "\x7d else \x7b" :: (blockLines d body).map inner ++ ["\x7d"]

end

end Statement

end ShaderGraph
