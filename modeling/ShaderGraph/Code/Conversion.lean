import ShaderGraph.Code.Expr
import ShaderGraph.Typing.Operator

/-!
# Conversions

* `Expr.coerce` is the implicit conversion: a scalar fills a vector, and numbers change their
  kind at equal width.
* `Expr.convert` is the explicit conversion between any two scalars or vectors: components are
  dropped from the end or filled up with zeros, a fourth one with a one.
-/

namespace ShaderGraph.Expr

/-- A scalar with another kind. -/
def castScalar (e : Expr) (source target : ScalarKind) : Expr :=
  if source = target then e else .construct (.scalar target) [e]

/-- An expression of type `source` as one of type `target`, if that needs no explicit
conversion. -/
def coerce (e : Expr) (source target : ValueType) : Except TypeError Expr :=
  if source = target then .ok e
  else match source.scalarKind, target.scalarKind with
    | some k, some l =>
      if source.isMatrix || target.isMatrix || k = .bool || l = .bool then
        .error (.coercion source target)
      else if source.isScalar then
        if target.isScalar then .ok (e.castScalar k l)
        else .ok (.construct target [e.castScalar k l])
      else if target.isVector && source.components = target.components then
        .ok (.construct target [e])
      else .error (.coercion source target)
    | _, _ => .error (.coercion source target)

/-- What fills the components of a vector from `first` on, up to `n`. -/
def padding (kind : ScalarKind) (first n : Nat) : List Expr :=
  (List.range' first (n - first)).map fun i => .literal kind (if i = 3 then 1 else 0)

/-- An expression of type `source` as one of type `target`. -/
def convert (e : Expr) (source target : ValueType) : Except TypeError Expr :=
  if source = target then .ok e
  else if source.isMatrix || target.isMatrix then .error (.conversion source target)
  else match source.scalarKind, target.scalarKind with
    | some k, some l =>
      let n := source.components.toNat
      let m := target.components.toNat
      let cast := if k = l then e else .construct (source.recast l) [e]
      if n = m then .ok cast
      else if n = 1 then .ok (.construct target [cast])
      else if m < n then .ok (.swizzle cast (Component.all.take m))
      else .ok (.construct target (cast :: padding l n m))
    | _, _ => .error (.conversion source target)

theorem coerce_self (e : Expr) (t : ValueType) : e.coerce t t = .ok e := by simp [coerce]

theorem convert_self (e : Expr) (t : ValueType) : e.convert t t = .ok e := by simp [convert]

end ShaderGraph.Expr
