import ShaderGraph.Decimal.Binary

/-!
# The fewest digits that read back

A finite binary number stands for every real that rounds to it. `shortest` finds, among the
decimal numbers with the fewest digits in that interval, the one nearest to the number itself.

For 1, 2, … digits the grid of decimals with that many digits is laid over the line, and the
two grid points next to the number are tested in exact arithmetic (`Interval.pick`). The
first grid with a hit wins; of two hits the nearer, and on an exact tie the format decides.
-/

namespace ShaderGraph.Decimal

/-- The number `coefficient · 10 ^ exponent`. -/
structure Digits where
  coefficient : Nat
  exponent : Int
deriving DecidableEq, Repr

/-- Which of two equally near decimals is taken. -/
inductive Tie where
  /-- The one whose last digit is even. -/
  | even
  /-- The larger one. -/
  | up
deriving DecidableEq, Repr

/-- The reals that round to a number: the fractions `low / unit`, `middle / unit` and
`high / unit`, and whether the ends belong to it. -/
structure Interval where
  low : Nat
  middle : Nat
  high : Nat
  unit : Nat
  closed : Bool
deriving DecidableEq, Repr

/-- The reals that round to `x`: half way to the neighbours on both sides. -/
def Dyadic.interval (x : Dyadic) : Interval :=
  -- in quarters of the last place the ends of the interval are whole numbers
  let m := 4 * x.mantissa
  let below := if x.narrowBelow then 1 else 2
  let up := Nat.pow 2 (x.exponent - 2).toNat
  let down := Nat.pow 2 (2 - x.exponent).toNat
  ⟨(m - below) * up, m * up, (m + 2) * up, down, x.mantissa % 2 == 0⟩

/-- The interval measured in units of `10 ^ k`. -/
def Interval.onGrid (i : Interval) (k : Int) : Interval :=
  let up := Nat.pow 10 (-k).toNat
  { i with
    low := i.low * up, middle := i.middle * up, high := i.high * up,
    unit := i.unit * Nat.pow 10 k.toNat }

/-- Whether the whole number `c` lies in the interval. -/
def Interval.holds (i : Interval) (c : Nat) : Bool :=
  let v := c * i.unit
  if i.closed then i.low ≤ v && v ≤ i.high else i.low < v && v < i.high

/-- The whole number in the interval that is nearest to its middle, if one of the two next
to the middle lies in it. -/
def Interval.pick (tie : Tie) (i : Interval) : Option Nat :=
  let c := i.middle / i.unit
  match i.holds c, i.holds (c + 1) with
  | false, false => none
  | true, false => some c
  | false, true => some (c + 1)
  | true, true =>
    let twice := 2 * i.middle
    let between := (2 * c + 1) * i.unit
    if twice < between then some c
    else if between < twice then some (c + 1)
    else match tie with
      | .up => some (c + 1)
      | .even => some (if c % 2 = 0 then c else c + 1)

/-- The number of decimal digits of a positive number. -/
def digitCount (n : Nat) : Nat := (Nat.toDigits 10 n).length

/-- The exponent of the leading digit of `num / den`. -/
def leading (num den : Nat) : Int :=
  if den ≤ num then (digitCount (num / den) : Int) - 1
  else -(digitCount ((den + num - 1) / num - 1) : Int)

/-- Moves trailing zeros from the coefficient to the exponent, at most `fuel` of them. -/
def Digits.strip : Nat → Digits → Digits
  | 0, d => d
  | fuel + 1, d =>
    if d.coefficient % 10 = 0 then Digits.strip fuel ⟨d.coefficient / 10, d.exponent + 1⟩ else d

/-- The most digits a double needs. -/
def mostDigits : Nat := 17

/-- The nearest to `x` of the decimals with the fewest digits that round to `x`. -/
def shortest (tie : Tie) (x : Dyadic) : Digits :=
  if x.mantissa = 0 then ⟨0, 0⟩
  else
    let i := x.interval
    let lead := leading i.middle i.unit
    let hit := (List.range mostDigits).findSome? fun (n : Nat) =>
      let k := lead - n
      ((i.onGrid k).pick tie).map fun c => (⟨c, k⟩ : Digits)
    (hit.getD ⟨0, 0⟩).strip mostDigits

example : (binary64.decode 0x3fb999999999999a).map (shortest .up) = some ⟨1, -1⟩ := by
  decide +kernel
example : (binary64.decode 0x3e60000000000000).map (shortest .up) =
    some ⟨29802322387695313, -24⟩ := by decide +kernel
example : (binary64.decode 0x3e60000000000000).map (shortest .even) =
    some ⟨29802322387695312, -24⟩ := by decide +kernel
example : (binary64.decode 1).map (shortest .up) = some ⟨5, -324⟩ := by decide +kernel

end ShaderGraph.Decimal
