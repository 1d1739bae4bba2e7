import ShaderGraph.Decimal.Shortest

/-!
# Writing decimals

A `Style` holds the decisions of one output format; `Style.write` writes a decimal by it.

* A number is written positionally while the position of its point lies in the range of the
  style, and with an exponent otherwise.
* A whole number keeps `.0` where the style asks for a point.
* An exponent that is not negative has the sign `+` where the style asks for one.
-/

namespace ShaderGraph.Decimal

/-- The decisions of a number format. -/
structure Style where
  tie : Tie
  /-- Point positions at or below which an exponent is used; position 1 is after the first
  digit. -/
  lowest : Option Int
  /-- The last point position that is written out. -/
  highest : Option Int
  /-- Whether a whole number is followed by `.0`. -/
  keepPoint : Bool
  /-- Whether an exponent that is not negative is written with its sign. -/
  signExponent : Bool
deriving DecidableEq, Repr

/-- Whether a number with its point at `point` is written out. -/
def Style.isPositional (s : Style) (point : Int) : Bool :=
  (match s.lowest with
    | some l => l < point
    | none => true) &&
  (match s.highest with
    | some h => point ≤ h
    | none => true)

/-- `n` zeros. -/
def zeros (n : Nat) : List Char := List.replicate n '0'

/-- The digits `ds` with their point at `point`, written out. -/
def positional (keepPoint : Bool) (ds : List Char) (point : Int) : List Char :=
  if point ≤ 0 then '0' :: '.' :: zeros (-point).toNat ++ ds
  else if point < ds.length then ds.take point.toNat ++ '.' :: ds.drop point.toNat
  else ds ++ zeros (point - ds.length).toNat ++ if keepPoint then ['.', '0'] else []

/-- The text of an exponent. -/
def exponentText (signed : Bool) (e : Int) : List Char :=
  (if signed && 0 ≤ e then ['+'] else []) ++ (toString e).toList

/-- The digits `ds` with their point at `point`, written with an exponent. -/
def scientific (signed : Bool) (ds : List Char) (point : Int) : List Char :=
  let mantissa := match ds with
    | d :: e :: rest => d :: '.' :: e :: rest
    | _ => ds
  mantissa ++ 'e' :: exponentText signed (point - 1)

/-- The text of a decimal. -/
def Style.write (s : Style) (negative : Bool) (d : Digits) : String :=
  let ds := Nat.toDigits 10 d.coefficient
  let point : Int := ds.length + d.exponent
  let text :=
    if s.isPositional point then positional s.keepPoint ds point
    else scientific s.signExponent ds point
  String.ofList (if negative then '-' :: text else text)

/-- The text of a binary number: its shortest decimal. -/
def Style.writeDyadic (s : Style) (x : Dyadic) : String :=
  s.write x.negative (shortest s.tie x)

/-- The text of a double, if it is finite. -/
def Style.float? (s : Style) (x : Float) : Option String := (ofFloat? x).map s.writeDyadic

/-- The text of a single, if it is finite. -/
def Style.float32? (s : Style) (x : Float32) : Option String := (ofFloat32? x).map s.writeDyadic

end ShaderGraph.Decimal
