import Mathlib
import ShaderGraph.Decimal.Binary
import ShaderGraph.Decimal.Style

/-!
# The shortest digits of doubles

`Dyadic.number` is the rational number of a finite binary number. `ofFloat?_eq` says that the sign and
magnitude that are read off the bits of a double are those of the double itself, so that taking the
magnitude of a double, comparing it with zero and cutting off its fraction do to the number what they
should (`ofFloat?_abs`, `eq_zero_iff`, `toInt_whole`).

The finite doubles lie apart from each other: `Format.decode_cases` bounds mantissa and exponent.

The decimal that is printed for a double is nearer to it than to any other double, so reading it gives
the double back (`reads_shortest`).

Seventeen digits are enough: on a grid of seventeen digits the next point above or below a double lies
nearer to it than half the way to its neighbours (`pick_isSome`). What is picked on any grid lies
between those halves (`between_of_holds`), and the doubles keep their distance
(`Canonical.add_le`, `Canonical.le_sub`).
-/

namespace ShaderGraph.Decimal

/-! ## Numbers of doubles -/

open Float.Model (UnpackedFloat)
open Float.Model.UnpackedFloat

/-! ### Numbers -/

/-- The magnitude of a finite binary number. -/
def Dyadic.magnitude (d : Dyadic) : ℚ := d.mantissa * 2 ^ d.exponent

/-- A finite binary number as a rational one. -/
def Dyadic.number (d : Dyadic) : ℚ := if d.negative then -d.magnitude else d.magnitude

theorem Dyadic.magnitude_nonneg (d : Dyadic) : 0 ≤ d.magnitude := by
  unfold magnitude
  positivity

theorem Dyadic.abs_number (d : Dyadic) : |d.number| = d.magnitude := by
  unfold number
  split
  · rw [abs_neg, abs_of_nonneg d.magnitude_nonneg]
  · exact abs_of_nonneg d.magnitude_nonneg

/-- The number of a double, and zero for what is not finite. -/
def number (x : Float) : ℚ := ((ofFloat? x).map Dyadic.number).getD 0

/-! ### Fields -/

/-- The sign and magnitude of an unpacked double, if it is finite. -/
def ofUnpacked? : UnpackedFloat → Option Dyadic
  | .finite sign m e _ => some ⟨sign == .negative, m, e, m == 2 ^ 52 && e != -1074⟩
  | .zero sign => some ⟨sign == .negative, 0, -1074, false⟩
  | .infinity _ | .notANumber => none

theorem toNat_unpackMantissa (b : BitVec 64) :
    (@unpackMantissa .binary64 b).toNat = b.toNat % 2 ^ 52 := by
  show (b.toNat >>> 0) % 2 ^ 52 = _
  rw [Nat.shiftRight_zero]

theorem toNat_unpackExponent (b : BitVec 64) :
    (@unpackExponent .binary64 b).toNat = b.toNat / 2 ^ 52 % 2 ^ 11 := by
  show (b.toNat >>> 52) % 2 ^ 11 = _
  rw [Nat.shiftRight_eq_div_pow]

theorem ofBitVec_unpackSign (b : BitVec 64) :
    (Sign.ofBitVec (@unpackSign .binary64 b) == .negative) =
      (b.toNat / 2 ^ 63 % 2 == 1) := by
  have field : (@unpackSign .binary64 b).toNat = b.toNat / 2 ^ 63 % 2 := by
    show (b.toNat >>> 63) % 2 ^ 1 = _
    rw [Nat.shiftRight_eq_div_pow]
  rw [← field]
  generalize @unpackSign .binary64 b = sign
  revert sign
  decide

theorem exponent_all_ones (e : BitVec 11) : e = -1#11 ↔ e.toNat + 1 = 2 ^ 11 := by
  rw [← BitVec.toNat_inj]
  show e.toNat = 2047 ↔ _
  omega

theorem toNat_normal (m : BitVec 52) : (1#1 ++ m).toNat = 2 ^ 52 + m.toNat := by
  show 2 ^ 52 ||| m.toNat = _
  rw [Nat.or_comm, Nat.or_two_pow_eq_add_of_lt m.isLt, Nat.add_comm]

/-- The sign and magnitude read off the bits are those of the unpacked double. -/
theorem decode_eq (b : BitVec 64) :
    binary64.decode b.toNat = ofUnpacked? (unpack .binary64 b) := by
  have mantissa := toNat_unpackMantissa b
  have field := toNat_unpackExponent b
  have negative := ofBitVec_unpackSign b
  have bound : (@unpackMantissa .binary64 b).toNat < 2 ^ 52 := BitVec.isLt _
  have decoded : binary64.decode b.toNat =
      if b.toNat / 2 ^ 52 % 2 ^ 11 + 1 = 2 ^ 11 then none
      else if b.toNat / 2 ^ 52 % 2 ^ 11 = 0 then
        some ⟨b.toNat / 2 ^ 63 % 2 == 1, b.toNat % 2 ^ 52, -1074, false⟩
      else some ⟨b.toNat / 2 ^ 63 % 2 == 1, 2 ^ 52 + b.toNat % 2 ^ 52,
        -1074 + (b.toNat / 2 ^ 52 % 2 ^ 11 : Nat) - 1,
        b.toNat % 2 ^ 52 == 0 && b.toNat / 2 ^ 52 % 2 ^ 11 != 1⟩ := rfl
  rw [decoded, ← mantissa, ← field, ← negative]
  unfold unpack
  simp only []
  by_cases infinite : @unpackExponent .binary64 b = -1#11
  · rw [if_pos infinite, if_pos ((exponent_all_ones _).1 infinite)]
    split <;> rfl
  · rw [if_neg infinite, if_neg (mt (exponent_all_ones _).2 infinite)]
    by_cases small : @unpackExponent .binary64 b = 0#11
    · have zero : (@unpackExponent .binary64 b).toNat = 0 := congrArg BitVec.toNat small
      rw [if_pos small, if_pos zero]
      split
      · next empty =>
        have empty : (@unpackMantissa .binary64 b).toNat = 0 := congrArg BitVec.toNat empty
        rw [empty]
        rfl
      · have short : ((@unpackMantissa .binary64 b).toNat == 2 ^ 52) = false :=
          beq_eq_false_iff_ne.2 bound.ne
        rw [zero, ofUnpacked?, short]
        rfl
    · have nonzero : (@unpackExponent .binary64 b).toNat ≠ 0 :=
        fun h => small (BitVec.toNat_inj.1 h)
      rw [if_neg small, if_neg nonzero, ofUnpacked?, toNat_normal]
      generalize (@unpackMantissa .binary64 b).toNat = m at *
      generalize (@unpackExponent .binary64 b).toNat = e at *
      have exponent : (e : Int) - ((Float.Model.Format.binary64.exponentBias : Int) + (52 : Nat)) =
          -1074 + e - 1 := by
        show (e : Int) - (1023 + 52) = _
        omega
      have narrow : (m == 0 && e != 1) = (2 ^ 52 + m == 2 ^ 52 && -1074 + (e : Int) - 1 != -1074) := by
        rw [Bool.eq_iff_iff]
        simp only [Bool.and_eq_true, beq_iff_eq, bne_iff_ne]
        omega
      rw [exponent, narrow]

theorem ofFloat?_eq (x : Float) : ofFloat? x = ofUnpacked? x.toModel.unpack :=
  decode_eq x.toModel.toBits.toBitVec

/-! ### What is done to a double -/

theorem unpack_nan {b : BitVec 64} (h : @isNaNBits .binary64 b = true) :
    unpack .binary64 b = notANumber := by
  obtain ⟨exponent, mantissa⟩ := of_decide_eq_true h
  unfold unpack
  simp only []
  rw [if_pos exponent, if_neg mantissa]

/-- Packing the magnitude of what was unpacked loses nothing. -/
theorem unpack_pack_abs (b : BitVec 64) :
    unpack .binary64 (pack .binary64 (unpack .binary64 b).abs) = (unpack .binary64 b).abs := by
  let positive := packComponents .binary64 .positive (@unpackExponent .binary64 b)
    (@unpackMantissa .binary64 b)
  have same : unpack .binary64 positive = (unpack .binary64 b).abs := by
    unfold unpack
    simp only [positive, unpackExponent_packComponents, unpackMantissa_packComponents,
      unpackSign_packComponents]
    split
    · split <;> rfl
    · split
      · split <;> rfl
      · rfl
  rw [← same, pack_unpack]
  split
  · next nan => rw [unpack_packedNaN, unpack_nan nan]
  · rfl

theorem unpack_abs (x : Float) : x.abs.toModel.unpack = x.toModel.unpack.abs :=
  unpack_pack_abs x.toModel.toBits.toBitVec

/-- The magnitude of a double is what its bits say without the sign. -/
theorem ofFloat?_abs (x : Float) :
    ofFloat? x.abs = (ofFloat? x).map fun d => { d with negative := false } := by
  rw [ofFloat?_eq, ofFloat?_eq, unpack_abs]
  cases x.toModel.unpack <;> rfl

theorem number_abs (x : Float) : number x.abs = |number x| := by
  unfold number
  rw [ofFloat?_abs]
  cases ofFloat? x with
  | none => exact abs_zero.symm
  | some d => exact d.abs_number.symm

theorem isFinite_eq (x : Float) : x.isFinite = (ofFloat? x).isSome := by
  rw [ofFloat?_eq]
  show x.toModel.unpack.isFinite = _
  cases x.toModel.unpack <;> rfl

theorem beq_zero {x : Float} {d : Dyadic} (h : ofFloat? x = some d) :
    (x == 0) = (d.mantissa == 0) := by
  rw [ofFloat?_eq] at h
  show (x.toModel.unpack.compare (Float.toModel 0).unpack == some .eq) = _
  have zero : (Float.toModel 0).unpack = .zero .positive := by rfl
  rw [zero]
  cases hx : x.toModel.unpack with
  | zero sign =>
    rw [hx] at h
    cases h
    rfl
  | finite sign m e hm =>
    rw [hx] at h
    cases h
    rw [beq_eq_false_iff_ne.2 hm.ne']
    cases sign <;> rfl
  | infinity sign =>
    rw [hx] at h
    cases h
  | notANumber =>
    rw [hx] at h
    cases h

theorem eq_one_of_beq {x : Float} (h : (x == 1) = true) : x = 1 := by
  obtain ⟨-, -, rfl | ⟨-, h⟩ | ⟨-, h⟩⟩ := Float.beq_iff_ne_nan_and_eq.1 h
  · rfl
  · exact absurd h (by decide +kernel)
  · exact absurd h (by decide +kernel)

/-! ### Whole numbers -/

theorem mantissa_shiftRight (em : ExtendedMantissa) (n : Nat) :
    (em >>> n).mantissa = em.mantissa / 2 ^ n := by
  show (n.repeat ExtendedMantissa.shiftRightOne em).mantissa = _
  induction n with
  | zero => exact (Nat.div_one _).symm
  | succ n ih =>
    show (n.repeat ExtendedMantissa.shiftRightOne em).mantissa / 2 = _
    rw [ih, Nat.div_div_eq_div_mul, Nat.pow_succ]

/-- The whole part of a finite binary number. -/
theorem floor_magnitude (m : Nat) (e : Int) :
    ⌊(m * 2 ^ e : ℚ)⌋₊ = m * 2 ^ e.toNat / 2 ^ (-e).toNat := by
  obtain ⟨n, rfl | rfl⟩ := e.eq_nat_or_neg
  · have whole : (m * 2 ^ (n : Int) : ℚ) = (m * 2 ^ n : Nat) := by
      push_cast
      rw [zpow_natCast]
    rw [whole, Nat.floor_natCast]
    simp
  · have quotient : (m * 2 ^ (-(n : Int)) : ℚ) = (m : ℚ) / (2 ^ n : Nat) := by
      push_cast
      rw [zpow_neg, zpow_natCast, div_eq_mul_inv]
    have exponent : (-(n : Int)).toNat = 0 := by omega
    rw [quotient, Nat.floor_div_eq_div, neg_neg, Int.toNat_natCast, exponent, pow_zero, mul_one]

/-- A double that is turned into a whole number loses its fraction. -/
theorem roundToInt_eq (sign : Sign) (m : Nat) (e : Int) :
    roundToInt sign m e = sign.apply ⌊(m * 2 ^ e : ℚ)⌋₊ := by
  unfold roundToInt decreaseExponent shiftToExponent
  simp only [mantissa_shiftRight, floor_magnitude, sub_zero, Nat.shiftLeft_eq]
  have shift : (0 - (e - (e.toNat : Int))).toNat = (-e).toNat := by omega
  rw [shift]
  rfl

theorem toInt_unpacked {u : UnpackedFloat} {d : Dyadic} (h : ofUnpacked? u = some d)
    (hd : d.negative = false) (low high : Int) : u.toInt low high = ⌊d.magnitude⌋₊ := by
  cases u with
  | zero sign =>
    cases h
    simp [UnpackedFloat.toInt, Dyadic.magnitude]
  | finite sign m e hm =>
    cases h
    have positive : sign = .positive := by
      cases sign with
      | negative => cases hd
      | positive => rfl
    rw [positive]
    exact roundToInt_eq .positive m e
  | infinity sign => cases h
  | notANumber => cases h

/-- The signed whole number for a double that is not negative. -/
theorem toInt64_eq {x : Float} {d : Dyadic} (h : ofFloat? x = some d) (hd : d.negative = false) :
    x.toModel.toInt64.toInt = min ⌊d.magnitude⌋₊ (2 ^ 63 - 1 : Nat) := by
  show (Int64.ofIntClamp (x.toModel.unpack.toInt _ _)).toInt = _
  rw [ofFloat?_eq] at h
  rw [toInt_unpacked h hd]
  generalize ⌊d.magnitude⌋₊ = n
  have lowest : Int64.minValue.toInt = -2 ^ 63 := rfl
  have highest : Int64.maxValue.toInt = 2 ^ 63 - 1 := rfl
  unfold Int64.ofIntClamp
  rw [dif_pos (by omega)]
  split
  · next fits =>
    rw [Int64.toInt_ofIntLE]
    omega
  · next fits =>
    rw [highest] at *
    omega

/-- The unsigned whole number for a double that is not negative. -/
theorem toUInt64_eq {x : Float} {d : Dyadic} (h : ofFloat? x = some d) (hd : d.negative = false) :
    x.toUInt64.toNat = min ⌊d.magnitude⌋₊ (2 ^ 64 - 1) := by
  show (UInt64.ofNatClamp (x.toModel.unpack.toInt _ _).toNat).toNat = _
  rw [ofFloat?_eq] at h
  rw [toInt_unpacked h hd, Int.toNat_natCast]
  generalize ⌊d.magnitude⌋₊ = n
  have size : UInt64.size = 2 ^ 64 := rfl
  unfold UInt64.ofNatClamp
  split
  · next fits =>
    rw [UInt64.toNat_ofNatLT]
    omega
  · next fits =>
    rw [UInt64.toNat_ofNatLT]
    omega

/-! ## Decimals that read back -/

/-! ### Neighbours -/

namespace Dyadic

/-- Half the way to the next number away from zero. -/
def above (x : Dyadic) : ℚ := 2 ^ x.exponent / 2

/-- Half the way to the next number toward zero. -/
def below (x : Dyadic) : ℚ := if x.narrowBelow then 2 ^ x.exponent / 4 else 2 ^ x.exponent / 2

/-- What the numbers of a format have in common: a mantissa of at most `bits + 1` digits, which has
fewer only where the exponent is the lowest. -/
structure Canonical (bits : Nat) (lowest : Int) (x : Dyadic) : Prop where
  mantissa_lt : x.mantissa < 2 ^ (bits + 1)
  lowest_le : lowest ≤ x.exponent
  full : x.exponent = lowest ∨ 2 ^ bits ≤ x.mantissa
  narrow_iff : x.narrowBelow = true ↔ x.mantissa = 2 ^ bits ∧ x.exponent ≠ lowest

variable {bits : Nat} {lowest : Int} {x y : Dyadic}

/-- A number with a greater exponent is a multiple of the last place. -/
theorem magnitude_of_le (h : x.exponent ≤ y.exponent) :
    y.magnitude = (y.mantissa * 2 ^ (y.exponent - x.exponent).toNat : Nat) * 2 ^ x.exponent := by
  obtain ⟨n, hn⟩ := Int.le.dest h
  unfold magnitude
  rw [← hn, zpow_add₀ (by norm_num), add_sub_cancel_left, Int.toNat_natCast, zpow_natCast]
  push_cast
  ring

/-- A number with a smaller exponent is less than any with a full mantissa. -/
theorem Canonical.magnitude_le (hy : y.Canonical bits lowest) (h : y.exponent < x.exponent) :
    y.magnitude ≤ 2 ^ bits * 2 ^ x.exponent - 2 ^ x.exponent / 2 := by
  have mantissa : (y.mantissa : ℚ) ≤ 2 ^ (bits + 1) - 1 := by
    have := hy.mantissa_lt
    have : y.mantissa + 1 ≤ 2 ^ (bits + 1) := this
    have : (y.mantissa : ℚ) + 1 ≤ 2 ^ (bits + 1) := by exact_mod_cast this
    linarith
  have exponent : (2 : ℚ) ^ y.exponent ≤ 2 ^ x.exponent / 2 := by
    have step : (2 : ℚ) ^ (x.exponent - 1) = 2 ^ x.exponent / 2 := by
      rw [zpow_sub₀ (by norm_num), zpow_one]
    rw [← step]
    exact zpow_le_zpow_right₀ (by norm_num) (by omega)
  have one : (1 : ℚ) ≤ 2 ^ (bits + 1) := one_le_pow₀ (by norm_num)
  calc y.magnitude = y.mantissa * 2 ^ y.exponent := rfl
    _ ≤ (2 ^ (bits + 1) - 1) * (2 ^ x.exponent / 2) :=
      mul_le_mul mantissa exponent (by positivity) (by linarith)
    _ = 2 ^ bits * 2 ^ x.exponent - 2 ^ x.exponent / 2 := by ring

/-- The next number away from zero is one in the last place away. -/
theorem Canonical.add_le (hx : x.Canonical bits lowest) (hy : y.Canonical bits lowest)
    (h : x.magnitude < y.magnitude) : x.magnitude + 2 * x.above ≤ y.magnitude := by
  have place : (0 : ℚ) < 2 ^ x.exponent := by positivity
  unfold above
  obtain he | he := le_or_gt x.exponent y.exponent
  · rw [magnitude_of_le he] at h ⊢
    have less := lt_of_mul_lt_mul_right h place.le
    have next : ((x.mantissa + 1 : Nat) : ℚ) ≤
        (y.mantissa * 2 ^ (y.exponent - x.exponent).toNat : Nat) := by
      exact_mod_cast less
    calc x.magnitude + 2 * (2 ^ x.exponent / 2) = (x.mantissa + 1 : Nat) * 2 ^ x.exponent := by
          unfold magnitude
          push_cast
          ring
      _ ≤ _ := mul_le_mul_of_nonneg_right next place.le
  · -- a smaller exponent leaves no room for a greater number
    have full : 2 ^ bits ≤ x.mantissa := by
      have := hy.lowest_le
      exact hx.full.resolve_left (by omega)
    have full : (2 : ℚ) ^ bits ≤ x.mantissa := by exact_mod_cast full
    have small := hy.magnitude_le he
    have large := mul_le_mul_of_nonneg_right full place.le
    unfold magnitude at *
    linarith

/-- The next number toward zero is one in the last place away, or half of that. -/
theorem Canonical.le_sub (hx : x.Canonical bits lowest) (hy : y.Canonical bits lowest)
    (h : y.magnitude < x.magnitude) : y.magnitude ≤ x.magnitude - 2 * x.below := by
  have place : (0 : ℚ) < 2 ^ x.exponent := by positivity
  have below_le : 2 * x.below ≤ 2 ^ x.exponent := by
    unfold below
    split <;> linarith
  obtain he | he := le_or_gt x.exponent y.exponent
  · rw [magnitude_of_le he] at h ⊢
    have less := lt_of_mul_lt_mul_right h place.le
    have next : (y.mantissa * 2 ^ (y.exponent - x.exponent).toNat + 1 : Nat) ≤ (x.mantissa : ℚ) := by
      exact_mod_cast less
    have moved := mul_le_mul_of_nonneg_right next place.le
    unfold magnitude
    push_cast at moved ⊢
    linarith
  · have lowest_lt : lowest < x.exponent := lt_of_le_of_lt hy.lowest_le he
    have full : 2 ^ bits ≤ x.mantissa := hx.full.resolve_left lowest_lt.ne'
    have small := hy.magnitude_le he
    obtain heq | hlt := full.eq_or_lt
    · have narrow : x.narrowBelow = true := hx.narrow_iff.2 ⟨heq.symm, lowest_lt.ne'⟩
      have mantissa : (x.mantissa : ℚ) = 2 ^ bits := by exact_mod_cast heq.symm
      unfold below magnitude at *
      rw [if_pos narrow, mantissa]
      linarith
    · have next : (2 : ℚ) ^ bits + 1 ≤ x.mantissa := by exact_mod_cast hlt
      have moved := mul_le_mul_of_nonneg_right next place.le
      unfold magnitude at *
      linarith

end Dyadic

/-- The numbers of a format are canonical. -/
theorem Format.canonical {f : Format} {n : Nat} {x : Dyadic} (h : f.decode n = some x) :
    x.Canonical f.fractionBits (2 - (Nat.pow 2 f.exponentBits / 2 : Nat) - f.fractionBits) := by
  have fraction : n % 2 ^ f.fractionBits < 2 ^ f.fractionBits := Nat.mod_lt _ (by positivity)
  have power : 2 ^ (f.fractionBits + 1) = 2 ^ f.fractionBits + 2 ^ f.fractionBits := by ring
  unfold decode at h
  simp only [Nat.pow_eq] at h ⊢
  split at h
  · cases h
  · split at h
    · cases h
      refine ⟨by simp only []; omega, le_rfl, .inl rfl, ?_⟩
      simp
    · cases h
      refine ⟨by simp only []; omega, by simp only []; omega, .inr (by simp only []; omega), ?_⟩
      simp only [Bool.and_eq_true, beq_iff_eq, bne_iff_ne]
      omega

/-! ### Reading a decimal -/

/-- Reading `q` gives `x`: no other number of the format is as near, unless the mantissa of `x` is
even and `q` lies half way. -/
def Format.Reads (f : Format) (q : ℚ) (x : Dyadic) : Prop :=
  ∀ n y, f.decode n = some y → y.number ≠ x.number →
    |q - x.number| < |q - y.number| ∨
      |q - x.number| = |q - y.number| ∧ x.mantissa % 2 = 0

/-- A number lies between the halves of the ways to the neighbours of `x`; it is neither half where
the mantissa is odd. -/
structure Dyadic.Between (q : ℚ) (x : Dyadic) : Prop where
  low : x.magnitude - x.below ≤ q
  high : q ≤ x.magnitude + x.above
  inner : x.mantissa % 2 ≠ 0 → x.magnitude - x.below < q ∧ q < x.magnitude + x.above

namespace Dyadic

variable {x y : Dyadic} {q : ℚ}

theorem below_le_above (x : Dyadic) : x.below ≤ x.above := by
  have place : (0 : ℚ) < 2 ^ x.exponent := by positivity
  unfold below above
  split <;> linarith

theorem below_pos (x : Dyadic) : 0 < x.below := by
  unfold below
  split <;> positivity

theorem two_mul_below_le (hx : x.mantissa ≠ 0) : 2 * x.below ≤ x.magnitude := by
  have place : (0 : ℚ) < 2 ^ x.exponent := by positivity
  have one : (1 : ℚ) ≤ x.mantissa := by exact_mod_cast Nat.one_le_iff_ne_zero.2 hx
  have least := mul_le_mul_of_nonneg_right one place.le
  have half := x.below_le_above
  unfold above at half
  unfold magnitude
  linarith

/-- Another number is as far from `x` as twice the half of the way to a neighbour. -/
theorem neighbours {f : Format} {n k : Nat} (hx : f.decode n = some x) (hy : f.decode k = some y)
    (positive : x.negative = false) (nonzero : x.mantissa ≠ 0) (h : y.number ≠ x.number) :
    x.number + 2 * x.above ≤ y.number ∨ y.number ≤ x.number - 2 * x.below := by
  have number : x.number = x.magnitude := by
    rw [Dyadic.number, positive, if_neg Bool.false_ne_true]
  have least := two_mul_below_le nonzero
  rw [number] at h ⊢
  cases hneg : y.negative with
  | true =>
    have small : y.number = -y.magnitude := by rw [Dyadic.number, hneg, if_pos rfl]
    have := y.magnitude_nonneg
    exact .inr (by linarith)
  | false =>
    have same : y.number = y.magnitude := by
      rw [Dyadic.number, hneg, if_neg Bool.false_ne_true]
    rw [same] at h ⊢
    obtain less | greater := lt_or_gt_of_ne h
    · exact .inr ((Format.canonical hx).le_sub (Format.canonical hy) less)
    · exact .inl ((Format.canonical hx).add_le (Format.canonical hy) greater)

/-- A decimal between the halves reads back. -/
theorem Between.reads {f : Format} {n : Nat} (h : x.Between q) (hx : f.decode n = some x)
    (positive : x.negative = false) (nonzero : x.mantissa ≠ 0) : f.Reads q x := by
  intro k y hy hne
  have number : x.number = x.magnitude := by
    rw [Dyadic.number, positive, if_neg Bool.false_ne_true]
  have far := neighbours hx hy positive nonzero hne
  have wide := x.below_le_above
  have narrow := x.below_pos
  rw [number] at far hne ⊢
  have right := neg_le_abs (q - y.number)
  have left := le_abs_self (q - y.number)
  by_cases even : x.mantissa % 2 = 0
  · have low := h.low
    have high := h.high
    have near : |q - x.magnitude| ≤ |q - y.number| := by
      obtain far | far := far
      · exact le_trans (abs_le.2 ⟨by linarith, by linarith⟩) right
      · exact le_trans (abs_le.2 ⟨by linarith, by linarith⟩) left
    exact near.lt_or_eq.imp_right fun same => ⟨same, even⟩
  · obtain ⟨low, high⟩ := h.inner even
    refine .inl ?_
    obtain far | far := far
    · exact lt_of_lt_of_le (abs_lt.2 ⟨by linarith, by linarith⟩) right
    · exact lt_of_lt_of_le (abs_lt.2 ⟨by linarith, by linarith⟩) left

end Dyadic

/-! ### Grids -/

/-- A decimal as a rational number. -/
def Digits.number (d : Digits) : ℚ := d.coefficient * 10 ^ d.exponent

/-- A power as a quotient of powers that are not negative. -/
theorem zpow_eq_div {a : ℚ} (ha : a ≠ 0) (z : ℤ) : a ^ z = a ^ z.toNat / a ^ (-z).toNat := by
  have split : z = (z.toNat : ℤ) - ((-z).toNat : ℤ) := by omega
  conv_lhs => rw [split]
  rw [zpow_sub₀ ha, zpow_natCast, zpow_natCast]

/-- What a whole number of quarters of the last place is on a grid. -/
theorem quarters_onGrid (a : Nat) (e k : ℤ) :
    ((a * 2 ^ (e - 2).toNat * 10 ^ (-k).toNat : Nat) : ℚ) /
      (2 ^ (2 - e).toNat * 10 ^ k.toNat : Nat) * 10 ^ k = a * (2 ^ e / 4) := by
  have two : (2 : ℚ) ^ e / 4 = 2 ^ (e - 2).toNat / 2 ^ (2 - e).toNat := by
    have := zpow_eq_div (a := (2 : ℚ)) (by norm_num) (e - 2)
    rw [neg_sub] at this
    rw [← this, zpow_sub₀ (by norm_num)]
    norm_num
  have ten := zpow_eq_div (a := (10 : ℚ)) (by norm_num) k
  rw [two, ten]
  push_cast
  field_simp

/-- The interval of a number on a grid: its ends, its middle and its unit. -/
structure Interval.Around (i : Interval) (x : Dyadic) (k : ℤ) : Prop where
  low : (i.low : ℚ) / i.unit * 10 ^ k = x.magnitude - x.below
  middle : (i.middle : ℚ) / i.unit * 10 ^ k = x.magnitude
  high : (i.high : ℚ) / i.unit * 10 ^ k = x.magnitude + x.above
  unit_pos : 0 < i.unit
  closed : i.closed = (x.mantissa % 2 == 0)

theorem around_onGrid {x : Dyadic} (nonzero : x.mantissa ≠ 0) (k : ℤ) :
    (x.interval.onGrid k).Around x k where
  low := by
    refine (quarters_onGrid _ x.exponent k).trans ?_
    unfold Dyadic.magnitude Dyadic.below
    split
    · rw [Nat.cast_sub (by omega)]
      push_cast
      ring
    · rw [Nat.cast_sub (by omega)]
      push_cast
      ring
  middle := by
    refine (quarters_onGrid _ x.exponent k).trans ?_
    unfold Dyadic.magnitude
    push_cast
    ring
  high := by
    refine (quarters_onGrid _ x.exponent k).trans ?_
    unfold Dyadic.magnitude Dyadic.above
    push_cast
    ring
  unit_pos := by
    show 0 < 2 ^ (2 - x.exponent).toNat * 10 ^ k.toNat
    positivity
  closed := rfl

/-- What is picked on a grid lies between the halves. -/
theorem Interval.Around.between {i : Interval} {x : Dyadic} {k : ℤ} {c : Nat} (hi : i.Around x k)
    (h : i.holds c = true) : x.Between (Digits.number ⟨c, k⟩) := by
  have unit : (0 : ℚ) < i.unit := by exact_mod_cast hi.unit_pos
  have grid : (0 : ℚ) < 10 ^ k := by positivity
  have onGrid (a : Nat) : (a : ℚ) / i.unit * 10 ^ k ≤ c * 10 ^ k ↔ a ≤ c * i.unit := by
    rw [mul_le_mul_iff_of_pos_right grid, div_le_iff₀ unit]
    exact_mod_cast Iff.rfl
  have offGrid (a : Nat) : (c : ℚ) * 10 ^ k ≤ (a : ℚ) / i.unit * 10 ^ k ↔ c * i.unit ≤ a := by
    rw [mul_le_mul_iff_of_pos_right grid, le_div_iff₀ unit]
    exact_mod_cast Iff.rfl
  have low := onGrid i.low
  have high := offGrid i.high
  have low' := offGrid i.low
  have high' := onGrid i.high
  rw [hi.low] at low low'
  rw [hi.high] at high high'
  unfold holds at h
  rw [hi.closed] at h
  unfold Digits.number
  simp only []
  split at h
  · next even =>
    obtain ⟨hl, hh⟩ : i.low ≤ c * i.unit ∧ c * i.unit ≤ i.high := by simpa using h
    exact ⟨low.2 hl, high.2 hh, fun odd => absurd (beq_iff_eq.1 even) odd⟩
  · obtain ⟨hl, hh⟩ : i.low < c * i.unit ∧ c * i.unit < i.high := by simpa using h
    refine ⟨low.2 hl.le, high.2 hh.le, fun _ => ⟨?_, ?_⟩⟩
    · exact lt_of_not_ge fun hge => absurd (low'.1 hge) (by omega)
    · exact lt_of_not_ge fun hge => absurd (high'.1 hge) (by omega)

theorem Interval.Around.holds {i : Interval} {x : Dyadic} {k : ℤ} {c : Nat} (hi : i.Around x k)
    (low : x.magnitude - x.below < c * 10 ^ k) (high : c * 10 ^ k < x.magnitude + x.above) :
    i.holds c = true := by
  have unit : (0 : ℚ) < i.unit := by exact_mod_cast hi.unit_pos
  have grid : (0 : ℚ) < 10 ^ k := by positivity
  rw [← hi.low, mul_lt_mul_iff_of_pos_right grid, div_lt_iff₀ unit] at low
  rw [← hi.high, mul_lt_mul_iff_of_pos_right grid, lt_div_iff₀ unit] at high
  have hl : i.low < c * i.unit := by exact_mod_cast low
  have hh : c * i.unit < i.high := by exact_mod_cast high
  unfold Interval.holds
  split
  · simpa using ⟨hl.le, hh.le⟩
  · simpa using ⟨hl, hh⟩

theorem Interval.pick_isSome {i : Interval} {tie : Tie}
    (h : i.holds (i.middle / i.unit) = true ∨ i.holds (i.middle / i.unit + 1) = true) :
    (i.pick tie).isSome = true := by
  unfold pick
  simp only []
  split
  · next hc hn =>
    rw [hc, hn] at h
    simp at h
  · rfl
  · rfl
  · split
    · rfl
    · split
      · rfl
      · cases tie <;> rfl

/-- What is picked lies in the interval. -/
theorem Interval.holds_of_pick {i : Interval} {tie : Tie} {c : Nat} (h : i.pick tie = some c) :
    i.holds c = true := by
  unfold pick at h
  simp only [] at h
  split at h
  · cases h
  · next hc hn =>
    cases h
    exact hc
  · next hc hn =>
    cases h
    exact hn
  · next hc hn =>
    have either : c = i.middle / i.unit ∨ c = i.middle / i.unit + 1 := by
      split at h
      · cases h
        exact .inl rfl
      · split at h
        · cases h
          exact .inr rfl
        · cases tie with
          | up =>
            cases h
            exact .inr rfl
          | even =>
            simp only [Option.some.injEq] at h
            split at h
            · exact .inl h.symm
            · exact .inr h.symm
    obtain rfl | rfl := either
    · exact hc
    · exact hn

/-- On a grid of seventeen digits one of the two points next to a double lies between the halves. -/
theorem pick_onGrid {x : Dyadic} {k : ℤ} (hx : x.Canonical 52 (-1074)) (nonzero : x.mantissa ≠ 0)
    (fine : (10 : ℚ) ^ (k + 16) ≤ x.magnitude) (tie : Tie) :
    ((x.interval.onGrid k).pick tie).isSome = true := by
  have around := around_onGrid nonzero k
  generalize x.interval.onGrid k = i at around
  have unit : (0 : ℚ) < i.unit := by exact_mod_cast around.unit_pos
  have grid : (0 : ℚ) < 10 ^ k := by positivity
  have place : (0 : ℚ) < 2 ^ x.exponent := by positivity
  rw [zpow_add₀ (by norm_num), zpow_ofNat] at fine
  -- the two points are the ends of the step around the double
  have floor : (i.middle / i.unit : Nat) * 10 ^ k ≤ x.magnitude := by
    rw [← around.middle]
    exact mul_le_mul_of_nonneg_right Nat.cast_div_le grid.le
  have ceil : x.magnitude < ((i.middle / i.unit + 1 : Nat) : ℚ) * 10 ^ k := by
    rw [← around.middle]
    refine mul_lt_mul_of_pos_right ?_ grid
    rw [div_lt_iff₀ unit]
    exact_mod_cast Nat.lt_mul_of_div_lt (Nat.lt_succ_self _) around.unit_pos
  have step : ((i.middle / i.unit + 1 : Nat) : ℚ) * 10 ^ k =
      (i.middle / i.unit : Nat) * 10 ^ k + 10 ^ k := by
    push_cast
    ring
  have below := x.below_pos
  have above : x.above = 2 ^ x.exponent / 2 := rfl
  refine Interval.pick_isSome ?_
  cases hn : x.narrowBelow with
  | true =>
    -- the mantissa is the least full one, so the step is less than half the way up
    have mantissa : (x.mantissa : ℚ) = 2 ^ 52 := by exact_mod_cast (hx.narrow_iff.1 hn).1
    have size : x.magnitude = 2 ^ 52 * 2 ^ x.exponent := by rw [Dyadic.magnitude, mantissa]
    exact .inr (around.holds (by linarith) (by linarith))
  | false =>
    have mantissa : (x.mantissa : ℚ) ≤ 2 ^ 53 := by exact_mod_cast hx.mantissa_lt.le
    have size : x.magnitude ≤ 2 ^ 53 * 2 ^ x.exponent := mul_le_mul_of_nonneg_right mantissa place.le
    have same : x.below = 2 ^ x.exponent / 2 := by
      rw [Dyadic.below, hn, if_neg Bool.false_ne_true]
    by_cases low : x.magnitude - x.below < (i.middle / i.unit : Nat) * 10 ^ k
    · exact .inl (around.holds low (by linarith))
    · exact .inr (around.holds (by linarith) (by linarith))

/-! ### The fewest digits -/

theorem lt_digitCount (n : Nat) : n < 10 ^ digitCount n :=
  (Nat.length_toDigits_le_iff (by norm_num) Nat.length_toDigits_pos).1 le_rfl

theorem digitCount_le {n : Nat} (hn : 0 < n) : 10 ^ (digitCount n - 1) ≤ n := by
  by_cases one : digitCount n - 1 = 0
  · rw [one]
    exact hn
  · refine Nat.le_of_not_lt fun h => ?_
    have := (Nat.length_toDigits_le_iff (by norm_num) (Nat.pos_of_ne_zero one)).2 h
    unfold digitCount at *
    omega

/-- The leading digit of a fraction stands for no more than the fraction. -/
theorem leading_le {num den : Nat} (hnum : 0 < num) (hden : 0 < den) :
    (10 : ℚ) ^ leading num den ≤ num / den := by
  have positive : (0 : ℚ) < den := by exact_mod_cast hden
  unfold leading
  split
  · next whole =>
    have one : 0 < num / den := Nat.div_pos whole hden
    have digits : 0 < digitCount (num / den) := Nat.length_toDigits_pos
    have exponent : ((digitCount (num / den) : ℤ) - 1) = (digitCount (num / den) - 1 : Nat) := by
      omega
    rw [exponent, zpow_natCast]
    calc (10 : ℚ) ^ (digitCount (num / den) - 1) ≤ (num / den : Nat) := by
          exact_mod_cast digitCount_le one
      _ ≤ num / den := Nat.cast_div_le
  · next part =>
    -- the number of times that the fraction fits into one, rounded up
    have up : (den + num - 1) / num ≤ 10 ^ digitCount ((den + num - 1) / num - 1) := by
      have := lt_digitCount ((den + num - 1) / num - 1)
      omega
    have times : den ≤ (den + num - 1) / num * num := by
      have := Nat.div_add_mod (den + num - 1) num
      have := Nat.mod_lt (den + num - 1) hnum
      rw [mul_comm]
      omega
    have covered : (den : ℚ) ≤ 10 ^ digitCount ((den + num - 1) / num - 1) * num := by
      exact_mod_cast times.trans (Nat.mul_le_mul_right num up)
    rw [zpow_neg, zpow_natCast, inv_le_comm₀ (by positivity) (by positivity), inv_div,
      div_le_iff₀ (by exact_mod_cast hnum)]
    exact covered

theorem number_strip (fuel : Nat) (d : Digits) : (d.strip fuel).number = d.number := by
  induction fuel generalizing d with
  | zero => rfl
  | succ fuel ih =>
    unfold Digits.strip
    split
    · next zero =>
      rw [ih]
      have ten : d.coefficient = 10 * (d.coefficient / 10) := by omega
      unfold Digits.number
      conv_rhs => rw [ten]
      rw [zpow_add₀ (by norm_num), zpow_one]
      push_cast
      ring
    · rfl

/-- The decimal with the fewest digits lies between the halves. -/
theorem between_shortest {x : Dyadic} {tie : Tie} (hx : x.Canonical 52 (-1074))
    (nonzero : x.mantissa ≠ 0) : x.Between (shortest tie x).number := by
  let i := x.interval
  let f := fun n : Nat =>
    ((i.onGrid (leading i.middle i.unit - n)).pick tie).map fun c =>
      (⟨c, leading i.middle i.unit - n⟩ : Digits)
  have middle : 0 < i.middle := by
    show 0 < 4 * x.mantissa * 2 ^ (x.exponent - 2).toNat
    have := Nat.pos_of_ne_zero nonzero
    positivity
  have unit : 0 < i.unit := by
    show 0 < 2 ^ (2 - x.exponent).toNat
    positivity
  have quotient : (i.middle : ℚ) / i.unit = x.magnitude := by
    have := (around_onGrid nonzero 0).middle
    simpa [Interval.onGrid] using this
  have seventeen : (f 16).isSome = true := by
    refine Option.isSome_map.trans (pick_onGrid hx nonzero ?_ tie)
    rw [← quotient]
    have exponent : leading i.middle i.unit - ((16 : Nat) : ℤ) + 16 = leading i.middle i.unit := by
      push_cast
      ring
    rw [exponent]
    exact leading_le middle unit
  obtain ⟨d, hd⟩ := Option.isSome_iff_exists.1
    (List.findSome?_isSome_iff.2 ⟨16, List.mem_range.2 (by decide : 16 < mostDigits), seventeen⟩)
  have found : shortest tie x = d.strip mostDigits := by
    unfold shortest
    rw [if_neg nonzero]
    exact congrArg (fun hit : Option Digits => (hit.getD ⟨0, 0⟩).strip mostDigits) hd
  obtain ⟨n, -, hn⟩ := List.exists_of_findSome?_eq_some hd
  obtain ⟨c, hc, rfl⟩ := Option.map_eq_some_iff.1 hn
  rw [found, number_strip]
  exact (around_onGrid nonzero _).between (Interval.holds_of_pick hc)

/-- The decimal that is printed for a double gives the double back. -/
theorem reads_shortest {n : Nat} {x : Dyadic} {tie : Tie} (hx : binary64.decode n = some x)
    (positive : x.negative = false) (nonzero : x.mantissa ≠ 0) :
    binary64.Reads (shortest tie x).number x :=
  (between_shortest (Format.canonical hx) nonzero).reads hx positive nonzero

end ShaderGraph.Decimal
