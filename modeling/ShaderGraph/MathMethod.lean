import ShaderGraph.Text.Blank

/-!
# Math methods

The built-in functions of a shading language that a node can call.

* `arity` is the number of arguments of a method.
* `title` is its name as messages write it and `label` the same in lower case.
* `read?` reads the names that documents may use.
-/

namespace ShaderGraph

/-- A built-in function. -/
inductive MathMethod where
  | abs | sign | floor | ceil | fract | sqrt | inverseSqrt | exp | exp2 | log | log2
  | sin | cos | tan | asin | acos | atan | normalize | saturate | dfdx | dfdy | length
  | dot | distance | cross | min | max | pow | step | atan2 | reflect
  | mix | clamp | smoothstep
deriving DecidableEq, Repr

namespace MathMethod

/-- Every method. -/
def all : List MathMethod :=
  [abs, sign, floor, ceil, fract, sqrt, inverseSqrt, exp, exp2, log, log2, sin, cos, tan,
   asin, acos, atan, normalize, saturate, dfdx, dfdy, length, dot, distance, cross, min, max,
   pow, step, atan2, reflect, mix, clamp, smoothstep]

/-- The name of a method as messages write it. -/
def title : MathMethod → String
  | abs => "Abs"
  | sign => "Sign"
  | floor => "Floor"
  | ceil => "Ceil"
  | fract => "Fract"
  | sqrt => "Sqrt"
  | inverseSqrt => "InverseSqrt"
  | exp => "Exp"
  | exp2 => "Exp2"
  | log => "Log"
  | log2 => "Log2"
  | sin => "Sin"
  | cos => "Cos"
  | tan => "Tan"
  | asin => "Asin"
  | acos => "Acos"
  | atan => "Atan"
  | normalize => "Normalize"
  | saturate => "Saturate"
  | dfdx => "Dfdx"
  | dfdy => "Dfdy"
  | length => "Length"
  | dot => "Dot"
  | distance => "Distance"
  | cross => "Cross"
  | min => "Min"
  | max => "Max"
  | pow => "Pow"
  | step => "Step"
  | atan2 => "Atan2"
  | reflect => "Reflect"
  | mix => "Mix"
  | clamp => "Clamp"
  | smoothstep => "Smoothstep"

/-- The title in lower case. -/
def label (m : MathMethod) : String := String.ofList (m.title.toList.map Char.toLower)

/-- The name of a method: its title with a small first letter. -/
def name (m : MathMethod) : String :=
  match m with
  | inverseSqrt => "inverseSqrt"
  | _ => m.label

/-- The method with the given name. -/
def ofName? (s : String) : Option MathMethod := all.find? fun m => m.name = s

/-- The further names that documents may use. -/
def aliases : List (String × MathMethod) :=
  [("inversesqrt", inverseSqrt), ("dFdx", dfdx), ("dpdx", dfdx), ("dFdy", dfdy), ("dpdy", dfdy)]

/-- Reads the name of a method; blanks around it do not matter. -/
def read? (s : String) : Option MathMethod :=
  let t := String.ofList (Text.trim s.toList)
  match ofName? t with
  | some m => some m
  | none => aliases.lookup t

/-- The number of arguments. -/
def arity : MathMethod → Nat
  | dot | distance | cross | min | max | pow | step | atan2 | reflect => 2
  | mix | clamp | smoothstep => 3
  | _ => 1

/-- Whether the method takes the derivative along the screen. -/
def isDerivative : MathMethod → Bool
  | dfdx | dfdy => true
  | _ => false

theorem mem_all (m : MathMethod) : m ∈ all := by cases m <;> decide

end MathMethod

end ShaderGraph
