import ShaderGraph.Json.Value
import ShaderGraph.Text.Scan

/-!
# Reading JSON numbers

A number is read as a sign, a significand of as many leading digits as fit 64 bits, and a
power of ten.

* A whole number that fits 64 bits, signed or unsigned, stays exact.
* Any other number is the significand as a double, multiplied or divided by one power of
  ten after another (`scaleFloat`); where the result is not finite, there is no number.
-/

namespace ShaderGraph.Json

/-- What the digits of a number amount to: `significand · 10 ^ exponent`. -/
structure Scaled where
  significand : Nat
  exponent : Int
deriving DecidableEq, Repr

/-- The significands that fit 64 bits. -/
def significandBound : Nat := UInt64.size

/-- The greatest power of ten with a double of its own. -/
def greatestPower : Nat := 308

/-- The powers of ten as doubles. -/
def powerOfTen (n : Nat) : Float := Float.ofScientific 1 false n

/-- Divides by the greatest power of ten while the exponent is below it, then multiplies or
divides once; `fuel` bounds the divisions. -/
def scaleFloat : Nat → Float → Int → Option Float
  | fuel, f, exponent =>
    if exponent.natAbs ≤ greatestPower then
      if 0 ≤ exponent then
        let x := f * powerOfTen exponent.natAbs
        if x.isInf then none else some x
      else some (f / powerOfTen exponent.natAbs)
    else if f == 0 then some f
    else if 0 ≤ exponent then none
    else match fuel with
      | 0 => some 0
      | fuel + 1 => scaleFloat fuel (f / powerOfTen greatestPower) (exponent + greatestPower)

/-- The double of a scaled significand, if it is finite. A positive number is divided by the
greatest power at most three times before nothing is left of it. -/
def Scaled.toFloat? (negative : Bool) (s : Scaled) : Option Float :=
  (scaleFloat 4 (Float.ofNat s.significand) s.exponent).map fun x => if negative then -x else x

/-- Appends a digit if the significand still fits. -/
def Scaled.push? (s : Scaled) (c : Char) : Option Scaled :=
  let n := 10 * s.significand + Text.digitValue c
  if n < significandBound then some { s with significand := n } else none

/-- Takes the digits of the whole part; those that do not fit raise the exponent. -/
def wholeDigits (s : Scaled) : List Char → Scaled
  | [] => s
  | c :: cs =>
    match s.push? c with
    | some s => wholeDigits s cs
    | none => { s with exponent := (c :: cs).length }

/-- Takes the digits of the fraction; each that fits lowers the exponent, and the digits after
the first that does not are dropped. -/
def fractionDigits (s : Scaled) : List Char → Scaled
  | [] => s
  | c :: cs =>
    match s.push? c with
    | some t => fractionDigits { t with exponent := t.exponent - 1 } cs
    | none => s

/-- The greatest exponent that is told apart from a greater one. -/
def exponentBound : Int := 0x80000000

/-- The greatest magnitude of a negative whole number. -/
def negativeBound : Nat := 0x8000000000000000

/-- A run of digits and what follows it. -/
def spanDigits (cs : List Char) : List Char × List Char :=
  (cs.takeWhile Char.isDigit, cs.dropWhile Char.isDigit)

/-- Reads the exponent after the letter: its value and what follows it. -/
def readExponent? (cs : List Char) : Option (Int × List Char) :=
  let (negative, cs) := match cs with
    | '+' :: rest => (false, rest)
    | '-' :: rest => (true, rest)
    | _ => (false, cs)
  let (digits, rest) := spanDigits cs
  (Text.readDigits? digits).map fun n => (if negative then -(n : Int) else n, rest)

/-- The number with the given parts; `whole` tells that it has neither fraction nor
exponent. -/
def Scaled.number? (negative whole : Bool) (s : Scaled) : Option Number :=
  if whole && s.exponent = 0 then
    if !negative then some (.int s.significand)
    else if s.significand = 0 || negativeBound < s.significand then
      some (.double (-(Float.ofNat s.significand)))
    else some (.int (-(s.significand : Int)))
  else (s.toFloat? negative).map .double

/-- Adds the exponent that was written. A sum beyond 32 bits is as good as the bound. -/
def Scaled.raise (s : Scaled) (e : Int) : Scaled :=
  { s with exponent := max (-exponentBound) (min (s.exponent + e) exponentBound) }

/-- Reads an unsigned number: its value, if it has one, and what follows it. -/
def readUnsigned? (negative : Bool) (cs : List Char) : Option (Option Number × List Char) :=
  let (digits, rest) := spanDigits cs
  let leadingZero := digits.head? == some '0' && digits.length != 1
  if digits.isEmpty || leadingZero then none
  else
    let s := wholeDigits ⟨0, 0⟩ digits
    let fraction := match rest with
      | '.' :: rest =>
        let (digits, rest) := spanDigits rest
        if digits.isEmpty then none else some (false, fractionDigits s digits, rest)
      | _ => some (true, s, rest)
    match fraction with
    | none => none
    | some (whole, s, rest) =>
      match rest with
      | 'e' :: rest | 'E' :: rest =>
        (readExponent? rest).map fun r => ((s.raise r.1).number? negative false, r.2)
      | _ => some (s.number? negative whole, rest)

/-- Reads a number: its value, if it has one, and what follows it. -/
def readNumber? : List Char → Option (Option Number × List Char)
  | '-' :: cs => readUnsigned? true cs
  | cs => readUnsigned? false cs

end ShaderGraph.Json
