import ShaderGraph.Proofs.Scanning
import ShaderGraph.Proofs.ShortestDigits
import ShaderGraph.Dialect.Spelling

/-!
# Numerals

What the literals of the generated code denote: `ScalarKind.numeral?` reads a numeral as a rational
number, and `numeral?_literal` says that the literal of a double reads as `literalNumber`. A whole
number has lost the fraction of the double (`literalNumber_int`, `literalNumber_uint`); a float
reads back as the double (`reads_literalNumber`). The double of a whole number of at most 53 digits
is that number, so comparing doubles bounds the numbers of literals (`literalNumber_within`,
`literalNumber_int_neg_iff`).
-/

namespace ShaderGraph

open Decimal

/-! ### Reading -/

/-- Reads digits with an optional point among them. -/
def readDecimal? (cs : List Char) : Option ℚ :=
  match Text.cutAt (· == '.') cs with
  | none => (Text.readDigits? cs).map fun n => (n : ℚ)
  | some (whole, fraction) =>
    match Text.readDigits? whole, Text.readDigits? fraction with
    | some w, some f => some (w + f / 10 ^ fraction.length)
    | _, _ => none

/-- Reads a number with an optional minus sign in front. -/
def readSigned? (read : List Char → Option ℚ) : List Char → Option ℚ
  | '-' :: cs => (read cs).map fun q => -q
  | cs => read cs

/-- Reads a whole number. -/
def readWhole? (cs : List Char) : Option ℚ := (Text.readDigits? cs).map fun n => (n : ℚ)

/-- The number that a numeral of a kind denotes. -/
def ScalarKind.numeral? (kind : ScalarKind) (text : String) : Option ℚ :=
  match kind with
  | .bool => none
  | .int => readSigned? readWhole? text.toList
  | .uint => (Text.dropBack? ['u'] text.toList).bind readWhole?
  | .float => readSigned? readDecimal? text.toList

/-! ### Writing -/

/-- The number that the literal of a double denotes. -/
def literalNumber (kind : ScalarKind) (v : Float) : ℚ :=
  match kind with
  | .bool => 0
  | .int => v.toModel.toInt64.toInt
  | .uint => v.toUInt64.toNat
  | .float =>
    match ofFloat? v with
    | some x => if x.negative then -(shortest .up x).number else (shortest .up x).number
    | none => 0

theorem ofDigitChars_append_ten (l m : List Char) :
    Nat.ofDigitChars 10 (l ++ m) 0 =
      10 ^ m.length * Nat.ofDigitChars 10 l 0 + Nat.ofDigitChars 10 m 0 :=
  (Nat.ofDigitChars_append 0).trans Nat.ofDigitChars_eq_ofDigitChars_zero

theorem ofDigitChars_zeros (n : Nat) : Nat.ofDigitChars 10 (zeros n) 0 = 0 :=
  Nat.ofDigitChars_replicate_zero.trans (Nat.mul_zero _)

/-- Digits around a point read as the number without the point, moved to the right. -/
theorem readDecimal?_point {whole fraction : List Char} (hw : whole ≠ []) (hf : fraction ≠ [])
    (digits : ∀ c ∈ whole ++ fraction, c.isDigit = true) :
    readDecimal? (whole ++ '.' :: fraction) =
      some ((Nat.ofDigitChars 10 (whole ++ fraction) 0 : ℚ) / 10 ^ fraction.length) := by
  have dw : ∀ c ∈ whole, c.isDigit = true := fun c hc => digits c (List.mem_append_left _ hc)
  have df : ∀ c ∈ fraction, c.isDigit = true := fun c hc => digits c (List.mem_append_right _ hc)
  have pointless : ∀ c ∈ whole, (c == '.') = false := fun c hc => by
    rw [beq_eq_false_iff_ne]
    rintro rfl
    exact absurd (dw _ hc) (by decide)
  unfold readDecimal?
  rw [Text.cutAt_append fraction pointless rfl]
  simp only [Text.readDigits?_eq hw dw, Text.readDigits?_eq hf df]
  rw [ofDigitChars_append_ten]
  push_cast
  rw [add_div, mul_div_cancel_left₀ _ (by positivity)]

/-- A number that is written out reads back. -/
theorem readDecimal?_positional (c : Nat) (e : ℤ) :
    readDecimal? (positional true (Nat.toDigits 10 c) ((Nat.toDigits 10 c).length + e)) =
      some ((c : ℚ) * 10 ^ e) := by
  have digits : ∀ a ∈ Nat.toDigits 10 c, a.isDigit = true := fun _ => Text.isDigit_of_mem_toDigits
  have nonempty : Nat.toDigits 10 c ≠ [] := Nat.toDigits_ne_nil
  have value : Nat.ofDigitChars 10 (Nat.toDigits 10 c) 0 = c :=
    Nat.ofDigitChars_toDigits (by decide) (by decide)
  generalize Nat.toDigits 10 c = ds at *
  have filled (n : Nat) : ∀ a ∈ zeros n, a.isDigit = true := fun a ha => by
    rw [List.eq_of_mem_replicate ha]
    rfl
  unfold positional
  split
  · next left =>
    -- zeros fill up the places between the point and the digits
    have all : ∀ a ∈ zeros 1 ++ (zeros (-(ds.length + e)).toNat ++ ds), a.isDigit = true := by
      simp only [List.mem_append]
      rintro a (ha | ha | ha)
      · exact filled _ a ha
      · exact filled _ a ha
      · exact digits a ha
    refine (readDecimal?_point (by simp [zeros]) (by simp [nonempty]) all).trans ?_
    have places : e = -((zeros (-(ds.length + e)).toNat ++ ds).length : ℤ) := by
      rw [List.length_append, zeros, List.length_replicate]
      omega
    rw [ofDigitChars_append_ten, ofDigitChars_append_ten, ofDigitChars_zeros, ofDigitChars_zeros,
      mul_zero, mul_zero, zero_add, zero_add, value]
    conv_rhs => rw [places, zpow_neg, zpow_natCast, ← div_eq_mul_inv]
  · split
    · next right inside =>
      have cut : ds.take (ds.length + e).toNat ++ ds.drop (ds.length + e).toNat = ds :=
        List.take_append_drop _ _
      have places : e = -((ds.drop (ds.length + e).toNat).length : ℤ) := by
        rw [List.length_drop]
        omega
      refine (readDecimal?_point ?_ ?_ (cut.symm ▸ digits)).trans ?_
      · rw [Ne, List.take_eq_nil_iff]
        exact not_or.2 ⟨by omega, nonempty⟩
      · rw [Ne, List.drop_eq_nil_iff]
        omega
      · rw [cut, value]
        conv_rhs => rw [places, zpow_neg, zpow_natCast, ← div_eq_mul_inv]
    · next right outside =>
      have all : ∀ a ∈ (ds ++ zeros (ds.length + e - ds.length).toNat) ++ ['0'],
          a.isDigit = true := by
        simp only [List.mem_append]
        rintro a ((ha | ha) | ha)
        · exact digits a ha
        · exact filled _ a ha
        · exact filled 1 a ha
      have places : e = ((zeros (ds.length + e - ds.length).toNat).length : ℤ) := by
        rw [zeros, List.length_replicate]
        omega
      rw [if_pos rfl]
      refine (readDecimal?_point (by simp [nonempty]) (by simp) all).trans ?_
      rw [ofDigitChars_append_ten, ofDigitChars_append_ten, ofDigitChars_zeros, value]
      conv_rhs => rw [places, zpow_natCast]
      simp [Nat.ofDigitChars, mul_comm]

theorem readSigned?_of_digits {read : List Char → Option ℚ} {cs : List Char}
    (h : ∀ c ∈ cs, c.isDigit = true ∨ c = '.') : readSigned? read cs = read cs := by
  unfold readSigned?
  split
  · next rest =>
    obtain digit | point := h '-' List.mem_cons_self
    · exact absurd digit (by decide)
    · exact absurd point (by decide)
  · rfl

theorem isDigit_of_mem_zeros {n : Nat} {a : Char} (ha : a ∈ zeros n) : a.isDigit = true := by
  rw [List.eq_of_mem_replicate ha]
  rfl

theorem mem_positional {c : Nat} {point : ℤ} {a : Char}
    (ha : a ∈ positional true (Nat.toDigits 10 c) point) : a.isDigit = true ∨ a = '.' := by
  have digits : ∀ a ∈ Nat.toDigits 10 c, a.isDigit = true := fun _ => Text.isDigit_of_mem_toDigits
  unfold positional at ha
  split at ha
  · simp only [List.cons_append, List.mem_cons, List.mem_append] at ha
    obtain rfl | rfl | ha | ha := ha
    · exact .inl rfl
    · exact .inr rfl
    · exact .inl (isDigit_of_mem_zeros ha)
    · exact .inl (digits a ha)
  · split at ha
    · simp only [List.mem_cons, List.mem_append] at ha
      obtain ha | rfl | ha := ha
      · exact .inl (digits a (List.mem_of_mem_take ha))
      · exact .inr rfl
      · exact .inl (digits a (List.mem_of_mem_drop ha))
    · simp only [if_true, List.mem_append, List.mem_cons, List.not_mem_nil, or_false] at ha
      obtain (ha | ha) | rfl | rfl := ha
      · exact .inl (digits a ha)
      · exact .inl (isDigit_of_mem_zeros ha)
      · exact .inr rfl
      · exact .inl rfl

/-- A binary number that is written out reads as its shortest decimal. -/
theorem readSigned?_write (x : Decimal.Dyadic) :
    readSigned? readDecimal? (Dialect.literalStyle.writeDyadic x).toList =
      some (if x.negative then -(shortest .up x).number else (shortest .up x).number) := by
  let d := shortest .up x
  let cs := positional true (Nat.toDigits 10 d.coefficient)
    ((Nat.toDigits 10 d.coefficient).length + d.exponent)
  have read : readDecimal? cs = some d.number := readDecimal?_positional d.coefficient d.exponent
  have text : (Dialect.literalStyle.writeDyadic x).toList = if x.negative then '-' :: cs else cs :=
    String.toList_ofList
  rw [text]
  split
  · exact congrArg (Option.map fun q => -q) read
  · exact (readSigned?_of_digits fun a ha => mem_positional ha).trans read

theorem readWhole?_toDigits (n : Nat) : readWhole? (Nat.toDigits 10 n) = some (n : ℚ) := by
  rw [readWhole?, Text.readDigits?_toDigits]
  rfl

theorem readSigned?_toString (i : ℤ) :
    readSigned? readWhole? (toString i).toList = some (i : ℚ) := by
  rw [Int.toString_eq_repr]
  cases i with
  | ofNat n =>
    show readSigned? readWhole? (Nat.repr n).toList = _
    rw [Nat.toList_repr]
    have digits : ∀ c ∈ Nat.toDigits 10 n, c.isDigit = true ∨ c = '.' :=
      fun _ hc => .inl (Text.isDigit_of_mem_toDigits hc)
    rw [readSigned?_of_digits digits, readWhole?_toDigits]
    rfl
  | negSucc n =>
    show readSigned? readWhole? ("-" ++ Nat.repr (n + 1)).toList = _
    rw [String.toList_append, Nat.toList_repr]
    refine (congrArg (Option.map fun q => -q) (readWhole?_toDigits (n + 1))).trans ?_
    rw [Int.cast_negSucc]
    rfl

/-- The literal of a double reads as its number. -/
theorem numeral?_literal {kind : ScalarKind} (h : kind ≠ .bool) (v : Float) :
    kind.numeral? (Dialect.literal kind v) = some (literalNumber kind v) := by
  cases kind with
  | bool => exact absurd rfl h
  | int =>
    show readSigned? readWhole? (toString v.toModel.toInt64.toInt).toList = _
    exact readSigned?_toString _
  | uint =>
    have text : (Dialect.literal .uint v).toList = Nat.toDigits 10 v.toUInt64.toNat ++ ['u'] := by
      show (Nat.repr v.toUInt64.toNat ++ "u").toList = _
      rw [String.toList_append, Nat.toList_repr]
      rfl
    unfold ScalarKind.numeral?
    simp only [text, Text.dropBack?_append, Option.bind_some]
    exact readWhole?_toDigits _
  | float =>
    show readSigned? readDecimal? (Dialect.floatLiteral v).toList = _
    unfold Dialect.floatLiteral Style.float? literalNumber
    cases ofFloat? v with
    | none =>
      show readSigned? readDecimal? "0.0".toList = some 0
      decide +kernel
    | some x => exact readSigned?_write x

/-! ### The numbers of steps -/

variable {v : Float} {d : Decimal.Dyadic}

/-- The literal of a float that is not negative reads back as the float. -/
theorem reads_literalNumber (h : ofFloat? v = some d) (positive : d.negative = false)
    (nonzero : d.mantissa ≠ 0) : binary64.Reads (literalNumber .float v) d := by
  have number : literalNumber .float v = (shortest .up d).number := by
    simp only [literalNumber, h, positive, Bool.false_eq_true, if_false]
  rw [number]
  exact reads_shortest h positive nonzero

theorem literalNumber_int (h : ofFloat? v = some d) (positive : d.negative = false) :
    literalNumber .int v = (min ⌊d.magnitude⌋₊ (2 ^ 63 - 1) : Nat) := by
  rw [literalNumber, toInt64_eq h positive]
  push_cast
  rfl

theorem literalNumber_uint (h : ofFloat? v = some d) (positive : d.negative = false) :
    literalNumber .uint v = (min ⌊d.magnitude⌋₊ (2 ^ 64 - 1) : Nat) := by
  rw [literalNumber, toUInt64_eq h positive]

/-! ### Whole numbers as doubles -/

namespace Decimal

open Float.Model (UnpackedFloat)
open Float.Model.UnpackedFloat

/-- A mantissa that ends in zeros is cut short without loss. -/
theorem shiftRight_zeros (m n : Nat) :
    (⟨m * 2 ^ n, false, false⟩ : ExtendedMantissa) >>> n = ⟨m, false, false⟩ := by
  show n.repeat ExtendedMantissa.shiftRightOne ⟨m * 2 ^ n, false, false⟩ = _
  induction n generalizing m with
  | zero => rw [pow_zero, mul_one]; rfl
  | succ n ih =>
    have even : m * 2 ^ (n + 1) = (m * 2) * 2 ^ n := by ring
    show (n.repeat ExtendedMantissa.shiftRightOne _).shiftRightOne = _
    rw [even, ih]
    simp [ExtendedMantissa.shiftRightOne]

theorem log2_mul_two_pow {m n : Nat} (hm : m ≠ 0) : (m * 2 ^ n).log2 = m.log2 + n := by
  rw [Nat.log2_eq_iff (by positivity)]
  have h := (Nat.log2_eq_iff hm).1 rfl
  rw [pow_add, show m.log2 + n + 1 = m.log2 + 1 + n by omega, pow_add _ (m.log2 + 1)]
  exact ⟨Nat.mul_le_mul_right _ h.1, Nat.mul_lt_mul_of_pos_right h.2 (by positivity)⟩

/-- Rounding loses nothing of a number of 53 digits. -/
theorem roundWithAccuracy_exact {m : Nat} (low : 2 ^ 52 ≤ m) (high : m < 2 ^ 53) {e : Int}
    (he : -1074 ≤ e) (s : Sign) (j : Nat) :
    roundWithAccuracy .binary64 s (m * 2 ^ j) (e - j) .exact =
      .finite s m e (Nat.lt_of_lt_of_le (by decide) low) := by
  have digits : m.log2 = 52 := (Nat.log2_eq_iff (by omega)).2 ⟨low, high⟩
  have target : ∀ j : Nat, shiftToTargetExponent .binary64 (m * 2 ^ j) (e - j) .exact =
      (⟨m, false, false⟩, e) := by
    intro j
    unfold shiftToTargetExponent shiftToExponent Float.Model.totalExponent
    rw [log2_mul_two_pow (by omega), digits]
    have exponent : Float.Model.Format.binary64.targetExponent
        (((52 + j : Nat) : Int) + 1 + (e - j)) = e := by
      show max (_ - ((53 : Nat) : Int)) (-1074) = e
      omega
    simp only [exponent]
    have amount : (e - (e - (j : Int))).toNat = j := by omega
    rw [amount]
    refine Prod.ext (shiftRight_zeros m j) ?_
    show e - j + j = e
    omega
  have again := target 0
  rw [pow_zero, mul_one, Nat.cast_zero, sub_zero] at again
  unfold roundWithAccuracy
  simp only [target]
  have rounded : (⟨m, false, false⟩ : ExtendedMantissa).roundedMantissa = m := rfl
  simp only [rounded, again]
  rw [dif_neg (by omega)]

/-- What was rounded is packed without loss. -/
theorem unpack_pack_finite {m : Nat} (low : 2 ^ 52 ≤ m) (high : m < 2 ^ 53) {e : Int}
    (he : -1074 ≤ e) (he' : e ≤ 971) (s : Sign) (hm : 0 < m) :
    unpack .binary64 (pack .binary64 (.finite s m e hm)) = .finite s m e hm := by
  have digits : m.log2 = 52 := (Nat.log2_eq_iff (by omega)).2 ⟨low, high⟩
  obtain ⟨b, hb⟩ : ∃ b : Nat, e = b - 1075 := ⟨(e + 1075).toNat, by omega⟩
  subst hb
  have biased : ((b : Int) - 1075 + (Float.Model.Format.binary64.exponentBias : Int) +
      ((52 : Nat) : Int)).toNat = b := by
    show ((b : Int) - 1075 + (1023 : Nat) + (52 : Nat)).toNat = b
    omega
  have packed : pack .binary64 (.finite s m (b - 1075) hm) =
      packComponents .binary64 s (BitVec.ofNat 11 b) (BitVec.ofNat 52 m) := by
    unfold pack
    simp only [biased, digits]
    rw [if_neg (by show ¬ 2 ^ 11 ≤ b + 1; omega), if_pos (by rfl)]
  have field : (BitVec.ofNat 11 b).toNat = b := by
    rw [BitVec.toNat_ofNat]
    exact Nat.mod_eq_of_lt (by omega)
  rw [packed]
  unfold unpack
  simp only [unpackExponent_packComponents, unpackMantissa_packComponents]
  have nonzero : BitVec.ofNat 11 b ≠ 0#11 := fun h => by
    have := congrArg BitVec.toNat h
    rw [field] at this
    have zero : (0#11).toNat = 0 := rfl
    omega
  have finite : BitVec.ofNat 11 b ≠ -1#11 := fun h => by
    have := (exponent_all_ones _).1 h
    omega
  have sign : Sign.ofBitVec (@unpackSign .binary64 (packComponents .binary64 s (BitVec.ofNat 11 b)
      (BitVec.ofNat 52 m))) = s := by
    rw [unpackSign_packComponents]
    cases s <;> rfl
  have mantissa : (1#1 ++ BitVec.ofNat 52 m).toNat = m := by
    rw [toNat_normal, BitVec.toNat_ofNat]
    omega
  rw [if_neg finite, if_neg nonzero]
  simp only [sign, mantissa, field]
  congr 1

/-- A whole number that is made a double is what it was. -/
theorem unpack_toFloat {n : Nat} (pos : 0 < n) (high : n < 2 ^ 53) :
    ∃ m e, ∃ hm : 0 < m, n.toUInt64.toFloat.toModel.unpack = .finite .positive m e hm ∧
      2 ^ 52 ≤ m ∧ m < 2 ^ 53 ∧ -52 ≤ e ∧ e ≤ 0 ∧ (m * 2 ^ e : ℚ) = n := by
  obtain ⟨low, below⟩ := (Nat.log2_eq_iff (by omega : n ≠ 0)).1 rfl
  have digits : n.log2 ≤ 52 := by
    by_contra h
    have : 2 ^ 53 ≤ 2 ^ n.log2 := Nat.pow_le_pow_right (by decide) (by omega)
    omega
  obtain ⟨k, hk⟩ : ∃ k : Nat, n.log2 + k = 52 := ⟨52 - n.log2, by omega⟩
  have mlow : 2 ^ 52 ≤ n * 2 ^ k := by
    rw [← hk, pow_add]
    exact Nat.mul_le_mul_right _ low
  have mhigh : n * 2 ^ k < 2 ^ 53 := by
    rw [show 53 = n.log2 + 1 + k by omega, pow_add _ (n.log2 + 1)]
    exact Nat.mul_lt_mul_of_pos_right below (by positivity)
  have rounded : UnpackedFloat.ofUInt64 .binary64 n.toUInt64 =
      .finite .positive (n * 2 ^ k) (-k) (by positivity) := by
    have same : n.toUInt64.toNat = n := Nat.mod_eq_of_lt (by omega)
    unfold ofUInt64 ofNat ofInt UnpackedFloat.normalize
    rw [same]
    have order : compare (n : Int) 0 = .gt := compare_gt_iff_gt.2 (by omega)
    simp only [order]
    unfold UnpackedFloat.round decreaseExponent Float.Model.totalExponent
    have target : Float.Model.Format.binary64.targetExponent ((n.log2 : Int) + 1 + 0) = -k := by
      show max (_ - ((53 : Nat) : Int)) (-1074) = _
      omega
    have amount : ((0 : Int) - -k).toNat = k := by omega
    simp only [Int.toNat_natCast, target, amount, Nat.shiftLeft_eq]
    have exact := roundWithAccuracy_exact mlow mhigh (e := -k) (by omega) .positive 0
    simpa using exact
  refine ⟨n * 2 ^ k, -k, by positivity, ?_, mlow, mhigh, by omega, by omega, ?_⟩
  · show unpack .binary64 (pack .binary64 (ofUInt64 .binary64 n.toUInt64)) = _
    rw [rounded, unpack_pack_finite mlow mhigh (by omega) (by omega)]
  · push_cast
    rw [zpow_neg, zpow_natCast, mul_assoc, mul_inv_cancel₀ (by positivity), mul_one]

/-- The double of a whole number of at most 53 digits is that number. -/
theorem unpack_ofNat {n : Nat} (pos : 0 < n) (high : n < 2 ^ 53) :
    ∃ m e, ∃ hm : 0 < m, (Float.ofNat n).toModel.unpack = .finite .positive m e hm ∧
      2 ^ 52 ≤ m ∧ (m * 2 ^ e : ℚ) = n := by
  obtain ⟨m, e, hm, unpacked, mlow, mhigh, elow, ehigh, value⟩ := unpack_toFloat pos high
  refine ⟨m, e, hm, ?_, mlow, value⟩
  have product : Float.ofNat n = n.toUInt64.toFloat * Float.ofBits 0x3FF0000000000000 := by
    show Float.ofScientific n false 0 = _
    unfold Float.ofScientific
    rw [dif_pos ⟨high, by decide⟩]
    rfl
  rw [product]
  show unpack .binary64 (pack .binary64 (mul .binary64 n.toUInt64.toFloat.toModel.unpack
    (Float.ofBits 0x3FF0000000000000).toModel.unpack)) = _
  have one : (Float.ofBits 0x3FF0000000000000).toModel.unpack =
      .finite .positive (2 ^ 52) (-52) (by decide) := by rfl
  rw [unpacked, one]
  have rounded : mul .binary64 (.finite .positive m e hm)
      (.finite .positive (2 ^ 52) (-52) (by decide)) = .finite .positive m e hm :=
    roundWithAccuracy_exact mlow mhigh (by omega) .positive 52
  rw [rounded, unpack_pack_finite mlow mhigh (by omega) (by omega)]

/-- A double that is not at least a whole number is below it. -/
theorem magnitude_lt {n : Nat} (pos : 0 < n) (high : n < 2 ^ 53) {v : Float} {d : Dyadic}
    (hd : ofFloat? v = some d) (positive : d.negative = false) (h : ¬Float.ofNat n ≤ v) :
    d.magnitude < n := by
  obtain ⟨m, e, hm, unpacked, low, value⟩ := unpack_ofNat pos high
  have canonical : d.Canonical 52 (-1074) := Format.canonical hd
  have compared : ((Float.ofNat n).toModel.unpack.compare v.toModel.unpack).any (·.isLE) = false :=
    Bool.eq_false_iff.2 fun hc => h (decide_eq_true hc)
  rw [unpacked] at compared
  rw [ofFloat?_eq] at hd
  cases hv : v.toModel.unpack with
  | zero s =>
    rw [hv] at hd
    cases hd
    simp [Dyadic.magnitude, pos]
  | finite s m' e' hm' =>
    rw [hv] at hd compared
    cases hd
    have sign : s = .positive := by
      cases s with
      | negative => cases positive
      | positive => rfl
    subst sign
    have order : ((compare e e').then (compare m m')).isLE = false := compared
    rw [← value]
    show (m' * 2 ^ e' : ℚ) < m * 2 ^ e
    rcases lt_trichotomy e e' with lt | rfl | gt
    · rw [compare_lt_iff_lt.2 lt] at order
      cases order
    · rw [compare_eq_iff_eq.2 rfl] at order
      have less : m' < m := by
        by_contra hle
        have : (compare m m').isLE = true := by
          rw [Nat.isLE_compare]
          omega
        simp [this] at order
      have : (m' : ℚ) < m := by exact_mod_cast less
      exact mul_lt_mul_of_pos_right this (by positivity)
    · -- a lower exponent with no more digits
      have digits : m' < 2 ^ 53 := canonical.mantissa_lt
      have step : (2 : ℚ) ^ 53 * 2 ^ e' ≤ 2 ^ 52 * 2 ^ e := by
        rw [show (53 : ℕ) = 52 + 1 from rfl, pow_succ, mul_assoc, ← zpow_one_add₀ (by norm_num)]
        gcongr
        omega
      calc (m' * 2 ^ e' : ℚ) < 2 ^ 53 * 2 ^ e' := by
            have : (m' : ℚ) < 2 ^ 53 := by exact_mod_cast digits
            exact mul_lt_mul_of_pos_right this (by positivity)
        _ ≤ 2 ^ 52 * 2 ^ e := step
        _ ≤ m * 2 ^ e := by
            have : (2 ^ 52 : ℚ) ≤ m := by exact_mod_cast low
            exact mul_le_mul_of_nonneg_right this (by positivity)
  | infinity s =>
    rw [hv] at hd
    cases hd
  | notANumber =>
    rw [hv] at hd
    cases hd

/-! ### Below zero -/

theorem toInt_ofIntClamp_neg_iff (i : ℤ) : (Int64.ofIntClamp i).toInt < 0 ↔ i < 0 := by
  have lowest : Int64.minValue.toInt = -2 ^ 63 := rfl
  have highest : Int64.maxValue.toInt = 2 ^ 63 - 1 := rfl
  unfold Int64.ofIntClamp
  split
  · split
    · rw [Int64.toInt_ofIntLE]
    · rw [highest] at *
      omega
  · rw [lowest] at *
    omega

/-- A binary number in canonical form is at least one when its digits reach past the point. -/
theorem one_le_magnitude_iff {m : Nat} {e : ℤ} (digits : m < 2 ^ 53)
    (normal : 2 ^ 52 ≤ m ∨ e = -1074) :
    (1 : ℚ) ≤ m * 2 ^ e ↔ -52 < e ∨ e = -52 ∧ 2 ^ 52 ≤ m := by
  have digits' : (m : ℚ) < 2 ^ 53 := by exact_mod_cast digits
  rcases lt_trichotomy (-52) e with lt | rfl | gt
  · refine iff_of_true ?_ (.inl lt)
    have low : (2 : ℚ) ^ 52 ≤ m := by exact_mod_cast normal.resolve_right (by omega)
    have scale : (2 : ℚ) ^ (-52 : ℤ) ≤ 2 ^ e := zpow_le_zpow_right₀ (by norm_num) lt.le
    calc (1 : ℚ) = 2 ^ 52 * 2 ^ (-52 : ℤ) := by norm_num
      _ ≤ m * 2 ^ e := mul_le_mul low scale (by positivity) (by positivity)
  · rw [show (2 : ℚ) ^ (-52 : ℤ) = 1 / 2 ^ 52 by norm_num, mul_one_div, one_le_div (by positivity)]
    norm_num
  · refine iff_of_false (not_le.2 ?_) (by omega)
    have scale : (2 : ℚ) ^ e ≤ 2 ^ (-53 : ℤ) := zpow_le_zpow_right₀ (by norm_num) (by omega)
    calc (m : ℚ) * 2 ^ e < 2 ^ 53 * 2 ^ e := by gcongr
      _ ≤ 2 ^ 53 * 2 ^ (-53 : ℤ) := by gcongr
      _ = 1 := by norm_num

end Decimal

/-- A literal of a whole number lies where a double lies that is neither negative nor past the
end. -/
theorem literalNumber_within {kind : ScalarKind} (hk : kind = .int ∨ kind = .uint) {n : Nat}
    (pos : 0 < n) (high : n < 2 ^ 53) {v : Float} (low : ¬v < 0) (below : ¬Float.ofNat n ≤ v) :
    ∃ k : Nat, literalNumber kind v = k ∧ k < n := by
  have zero : (Float.toModel 0).unpack = .zero .positive := by rfl
  have above : (v.toModel.unpack.compare (Float.toModel 0).unpack == some .lt) = false :=
    Bool.eq_false_iff.2 fun hc => low (decide_eq_true hc)
  have finite : ∀ d, ofFloat? v = some d → d.negative = false →
      ∃ k : Nat, literalNumber kind v = k ∧ k < n := by
    intro d hd positive
    have floor : ⌊d.magnitude⌋₊ < n := by
      rw [Nat.floor_lt d.magnitude_nonneg]
      exact magnitude_lt pos high hd positive below
    rcases hk with rfl | rfl
    · exact ⟨_, literalNumber_int hd positive, by omega⟩
    · exact ⟨_, literalNumber_uint hd positive, by omega⟩
  -- what is no number and both zeros are cut to zero
  have nothing : (∀ l h, v.toModel.unpack.toInt l h = 0) →
      ∃ k : Nat, literalNumber kind v = k ∧ k < n := by
    refine fun hz => ⟨0, ?_, pos⟩
    rcases hk with rfl | rfl
    · show (((Int64.ofIntClamp (v.toModel.unpack.toInt _ _)).toInt : ℤ) : ℚ) = _
      rw [hz]
      rfl
    · show (((UInt64.ofNatClamp (v.toModel.unpack.toInt _ _).toNat).toNat : ℕ) : ℚ) = _
      rw [hz]
      rfl
  rw [zero] at above
  cases hv : v.toModel.unpack with
  | notANumber => exact nothing fun _ _ => hv ▸ rfl
  | zero s => exact nothing fun _ _ => hv ▸ rfl
  | infinity s =>
    rw [hv] at above
    cases s with
    | negative => cases above
    | positive =>
      obtain ⟨m, e, hm, unpacked, -⟩ := unpack_ofNat pos high
      have le : ((Float.ofNat n).toModel.unpack.compare v.toModel.unpack).any (·.isLE) = true := by
        rw [unpacked, hv]
        rfl
      exact absurd (decide_eq_true le) below
  | finite s m e hm =>
    rw [hv] at above
    cases s with
    | negative => cases above
    | positive => exact finite ⟨false, m, e, _⟩ (by rw [ofFloat?_eq, hv]; rfl) rfl

open Float.Model in
/-- The literal of a signed whole number is negative for the doubles down from minus one. -/
theorem literalNumber_int_neg_iff (v : Float) : literalNumber .int v < 0 ↔ v ≤ -1 := by
  have one : (Float.toModel (-1)).unpack = .finite .negative (2 ^ 52) (-52) (by decide) := by rfl
  have below : v ≤ -1 ↔ (v.toModel.unpack.compare (Float.toModel (-1)).unpack).any (·.isLE) = true :=
    decide_eq_true_iff
  have cut : literalNumber .int v < 0 ↔
      v.toModel.unpack.toInt Int64.minValue.toInt Int64.maxValue.toInt < 0 := by
    rw [← toInt_ofIntClamp_neg_iff]
    exact Int.cast_lt_zero (R := ℚ)
  rw [cut, below, one]
  cases hv : v.toModel.unpack with
  | notANumber => decide
  | zero s => cases s <;> decide
  | infinity s => cases s <;> decide
  | finite s m e hm =>
    have read : ofFloat? v = some ⟨s == .negative, m, e, m == 2 ^ 52 && e != -1074⟩ := by
      rw [ofFloat?_eq, hv]
      rfl
    have canonical : Dyadic.Canonical 52 (-1074) _ := Format.canonical read
    show UnpackedFloat.roundToInt s m e < 0 ↔ _
    rw [roundToInt_eq]
    cases s with
    | positive => exact iff_of_false (Int.natCast_nonneg _).not_gt Bool.false_ne_true
    | negative =>
      have reaches : 0 < ⌊(m * 2 ^ e : ℚ)⌋₊ ↔ -52 < e ∨ e = -52 ∧ 2 ^ 52 ≤ m :=
        Nat.floor_pos.trans (one_le_magnitude_iff canonical.mantissa_lt canonical.full.symm)
      have order : (((compare e (-52)).then (compare m (2 ^ 52))).swap).isLE = true ↔
          -52 < e ∨ e = -52 ∧ 2 ^ 52 ≤ m := by
        rw [Ordering.isLE_swap]
        rcases lt_trichotomy e (-52) with lt | rfl | gt
        · rw [compare_lt_iff_lt.2 lt]
          exact iff_of_false Bool.false_ne_true (by omega)
        · rw [compare_eq_iff_eq.2 rfl]
          show (compare m (2 ^ 52)).isGE = true ↔ _
          rw [Nat.isGE_compare]
          simp
        · rw [compare_gt_iff_gt.2 gt]
          exact iff_of_true rfl (.inl gt)
      show -(⌊(m * 2 ^ e : ℚ)⌋₊ : ℤ) < 0 ↔ _
      rw [neg_lt_zero, Int.natCast_pos, reaches]
      exact order.symm

end ShaderGraph
