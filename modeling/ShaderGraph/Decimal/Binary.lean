/-!
# Binary formats

The bits of a binary floating-point number as a sign and an exact magnitude.

* `Format` gives the widths of the fraction and exponent fields; `binary64` and `binary32`
  are the two in use.
* `Dyadic` is a finite number `± mantissa · 2 ^ exponent`.
* `Format.decode` reads the bits; NaN and the infinities are no finite number.
-/

namespace ShaderGraph.Decimal

/-- The widths of the fields of a binary format; the sign takes one bit more. -/
structure Format where
  fractionBits : Nat
  exponentBits : Nat
deriving DecidableEq, Repr

/-- Double precision. -/
def binary64 : Format := ⟨52, 11⟩

/-- Single precision. -/
def binary32 : Format := ⟨23, 8⟩

/-- The finite number `± mantissa · 2 ^ exponent`. -/
structure Dyadic where
  negative : Bool
  mantissa : Nat
  exponent : Int
  /-- The next number toward zero is half as far away as the next one away from zero. -/
  narrowBelow : Bool
deriving DecidableEq, Repr

/-- The finite number with the given bits. -/
def Format.decode (f : Format) (bits : Nat) : Option Dyadic :=
  let implied := Nat.pow 2 f.fractionBits
  let fields := Nat.pow 2 f.exponentBits
  let fraction := bits % implied
  let field := bits / implied % fields
  let negative := bits / (implied * fields) % 2 == 1
  let lowest : Int := 2 - (fields / 2 : Nat) - f.fractionBits
  if field + 1 = fields then none
  else if field = 0 then some ⟨negative, fraction, lowest, false⟩
  else some ⟨negative, implied + fraction, lowest + field - 1,
    fraction == 0 && field != 1⟩

/-- The sign and magnitude of a double, if it is finite. -/
def ofFloat? (x : Float) : Option Dyadic := binary64.decode x.toBits.toNat

/-- The sign and magnitude of a single, if it is finite. -/
def ofFloat32? (x : Float32) : Option Dyadic := binary32.decode x.toBits.toNat

example : binary64.decode 0x3ff0000000000000 = some ⟨false, 2 ^ 52, -52, true⟩ := by decide
example : binary64.decode 1 = some ⟨false, 1, -1074, false⟩ := by decide
example : binary64.decode 0x7ff0000000000000 = none := by decide

end ShaderGraph.Decimal
