import ShaderGraph.Proofs.Collections
import ShaderGraph.Proofs.Numerals
import ShaderGraph.Proofs.VariablesBuild

/-!
# Progress of loops

What the update clause of a loop adds to the counter, and whether the loop leaves its range.

`Moves` reads the update clause. The number that it prints is the step of the loop, read back from its
decimal, where the counter is a float; where the counter is a whole number, the step has lost its
fraction, and nothing is left of a step below one. A loop leaves its range if it moves at all, unless
its condition is `!=`: then the counter goes up, whichever side the end is on, and must meet the end
exactly. `Progress` collects this, and `buildLevels_progress` says it of every loop that is built.

The numbers of counters are rational ones, without bounds on their size and precision.
-/

namespace ShaderGraph

open Decimal

/-! ### Meaning of the parts -/

/-- Whether a comparison of two numbers holds. -/
def BinaryOp.Compares (op : BinaryOp) (x y : ℚ) : Prop :=
  match op with
  | .eq => x = y
  | .ne => x ≠ y
  | .lt => x < y
  | .le => x ≤ y
  | .gt => y < x
  | .ge => y ≤ x
  | _ => False

/-- The update clause `text` of a loop adds `q` to its counter. -/
inductive Moves (kind : ScalarKind) (counter : String) : String → ℚ → Prop
  | increment : Moves kind counter (counter ++ "++") 1
  | decrement : Moves kind counter (counter ++ "--") (-1)
  | add {text : String} {q : ℚ} (h : kind.numeral? text = some q) :
      Moves kind counter (counter ++ " += " ++ text) q
  | subtract {text : String} {q : ℚ} (h : kind.numeral? text = some q) :
      Moves kind counter (counter ++ " -= " ++ text) (-q)

/-- What a loop that counts by `amount` adds to its counter in each round. -/
def pace (condition : BinaryOp) (amount : ℚ) : ℚ :=
  if Statement.descends condition then -amount else amount

namespace ScalarKind

/-- A number is exactly that of a double that is not negative; a float is read as a double. -/
def Denotes (kind : ScalarKind) (q : ℚ) (x : Float) : Prop :=
  match kind with
  | .float => ∃ d, ofFloat? x = some d ∧ binary64.Reads q d
  | _ => q = number x

/-- No number of a kind is nearer than zero; floats have single precision. -/
def Vanishes (kind : ScalarKind) (q : ℚ) : Prop :=
  match kind with
  | .float => ∀ n y, binary32.decode n = some y → |q| ≤ |q - y.number|
  | _ => q = 0

/-- The whole numbers of a kind that literals reach lie below this bound. -/
def wholeBound : ScalarKind → Nat
  | .uint => 2 ^ 64
  | _ => 2 ^ 63

end ScalarKind

/-! ### Leaving a range -/

section Range

variable {a x y : ℚ}

/-- A counter that moves up passes every number. -/
theorem exists_gt (ha : 0 ≤ a) (nonzero : a ≠ 0) (x y : ℚ) : ∃ n : ℕ, y < x + n * a := by
  obtain ⟨n, hn⟩ := exists_nat_gt ((y - x) / a)
  rw [div_lt_iff₀ (lt_of_le_of_ne ha nonzero.symm)] at hn
  exact ⟨n, by linarith⟩

/-- What a counter comes to when it moves, it comes to if it moves or is there at once. -/
theorem exists_iff_of_moving {P : ℚ → Prop} (moving : a ≠ 0 → ∃ n : ℕ, P (x + n * a)) :
    (∃ n : ℕ, P (x + n * a)) ↔ P x ∨ a ≠ 0 := by
  constructor
  · rintro ⟨n, h⟩
    by_cases zero : a = 0
    · rw [zero, mul_zero, add_zero] at h
      exact .inl h
    · exact .inr zero
  · rintro (h | nonzero)
    · exact ⟨0, by simpa using h⟩
    · exact moving nonzero

theorem exists_ge_iff (ha : 0 ≤ a) : (∃ n : ℕ, y ≤ x + n * a) ↔ y ≤ x ∨ a ≠ 0 :=
  exists_iff_of_moving (P := (y ≤ ·)) fun nonzero => (exists_gt ha nonzero x y).imp fun _ => le_of_lt

theorem exists_gt_iff (ha : 0 ≤ a) : (∃ n : ℕ, y < x + n * a) ↔ y < x ∨ a ≠ 0 :=
  exists_iff_of_moving (P := (y < ·)) fun nonzero => exists_gt ha nonzero x y

/-- A counter that goes down is one that goes up on the other side of zero. -/
theorem exists_le_iff (ha : 0 ≤ a) : (∃ n : ℕ, x + n * -a ≤ y) ↔ x ≤ y ∨ a ≠ 0 := by
  rw [← neg_le_neg_iff, ← exists_ge_iff ha]
  exact exists_congr fun n => ⟨fun h => by linarith, fun h => by linarith⟩

theorem exists_lt_iff (ha : 0 ≤ a) : (∃ n : ℕ, x + n * -a < y) ↔ x < y ∨ a ≠ 0 := by
  rw [← neg_lt_neg_iff, ← exists_gt_iff ha]
  exact exists_congr fun n => ⟨fun h => by linarith, fun h => by linarith⟩

/-- A loop leaves its range when its condition fails at once, or when it moves and does not wait for
a number that it passes by. -/
theorem leaves_iff {condition : BinaryOp} (hop : condition.isComparison = true)
    (hne : condition ≠ .eq) (ha : 0 ≤ a) :
    (∃ n : ℕ, ¬condition.Compares (x + n * pace condition a) y) ↔
      ¬condition.Compares x y ∨ a ≠ 0 ∧ (condition ≠ .ne ∨ ∃ n : ℕ, x + n * a = y) := by
  cases condition with
  | lt => simpa [BinaryOp.Compares, pace, Statement.descends] using exists_ge_iff ha
  | le => simpa [BinaryOp.Compares, pace, Statement.descends] using exists_gt_iff ha
  | gt => simpa [BinaryOp.Compares, pace, Statement.descends] using exists_le_iff ha
  | ge => simpa [BinaryOp.Compares, pace, Statement.descends] using exists_lt_iff ha
  | ne =>
    simp only [BinaryOp.Compares, pace, Statement.descends, ne_eq, not_not, not_true, false_or,
      Bool.false_eq_true, if_false]
    constructor
    · rintro ⟨n, h⟩
      by_cases zero : a = 0
      · rw [zero, mul_zero, add_zero] at h
        exact .inl h
      · exact .inr ⟨zero, n, h⟩
    · rintro (h | ⟨-, n, h⟩)
      · exact ⟨0, by simpa using h⟩
      · exact ⟨n, h⟩
  | eq => exact absurd rfl hne
  | _ => cases hop

/-- While a loop runs it goes toward its end, unless its condition is `!=`. -/
theorem toward {condition : BinaryOp} (hop : condition.isComparison = true)
    (hne : condition ≠ .eq) (ha : 0 < a) (h : condition ≠ .ne) (running : condition.Compares x y) :
    x < x + pace condition a ∧ x ≤ y ∨ x + pace condition a < x ∧ y ≤ x := by
  cases condition with
  | lt => exact .inl ⟨by simpa [pace, Statement.descends] using ha, running.le⟩
  | le => exact .inl ⟨by simpa [pace, Statement.descends] using ha, running⟩
  | gt => exact .inr ⟨by simpa [pace, Statement.descends] using ha, running.le⟩
  | ge => exact .inr ⟨by simpa [pace, Statement.descends] using ha, running⟩
  | ne => exact absurd rfl h
  | eq => exact absurd rfl hne
  | _ => cases hop

end Range

/-! ### Steps -/

namespace Build

/-- What a level of a loop that is accepted looks like. -/
structure Accepted (p : LoopParam NodeId) (kind : ScalarKind) (step : Float) : Prop where
  type : p.type = .scalar kind
  numeric : kind ≠ .bool
  step_eq : step = p.step.abs
  comparison : p.resolvedCondition.isComparison = true
  ordered : p.resolvedCondition ≠ .eq
  nonzero : (step == 0) = false
  finite : step.isFinite = true

variable {p : LoopParam NodeId} {kind : ScalarKind} {step : Float}

theorem of_checkLevel (h : checkLevel p = .ok (kind, step)) : Accepted p kind step := by
  unfold checkLevel at h
  split at h
  · next k htype =>
    simp only [] at h
    split at h
    · cases h
    · next numeric =>
      split at h
      · cases h
      · next condition =>
        split at h
        · cases h
        · next number =>
          cases h
          simp only [Bool.or_eq_true, not_or, Bool.not_eq_true, Bool.not_eq_false',
            decide_eq_false_iff_not] at condition number
          exact ⟨htype, numeric, rfl, condition.1, condition.2, number.1, number.2⟩
  · cases h

end Build

/-! ### Amounts -/

/-- The number one is printed as one. -/
theorem literalNumber_one {kind : ScalarKind} (whole : kind ≠ .float) (numeric : kind ≠ .bool) :
    literalNumber kind 1 = 1 := by
  have one : ofFloat? 1 = some ⟨false, 2 ^ 52, -52, true⟩ := by decide +kernel
  have magnitude : (⟨false, 2 ^ 52, -52, true⟩ : Decimal.Dyadic).magnitude = 1 := by
    norm_num [Dyadic.magnitude]
  cases kind with
  | int => rw [literalNumber_int one rfl, magnitude]; norm_num
  | uint => rw [literalNumber_uint one rfl, magnitude]; norm_num
  | float => exact absurd rfl whole
  | bool => exact absurd rfl numeric

/-- The least single, which is half as far from zero as the numbers that are not nearer to it. -/
theorem vanishes_float {q : ℚ} (positive : 0 ≤ q) :
    ScalarKind.Vanishes .float q ↔ q ≤ 2 ^ (-150 : ℤ) := by
  have halves : (2 : ℚ) ^ (-149 : ℤ) = 2 ^ (-150 : ℤ) + 2 ^ (-150 : ℤ) := by norm_num
  unfold ScalarKind.Vanishes
  rw [abs_of_nonneg positive]
  constructor
  · intro h
    have least := h 1 ⟨false, 1, -149, false⟩ (by decide)
    have number : (⟨false, 1, -149, false⟩ : Decimal.Dyadic).number = 2 ^ (-149 : ℤ) := by
      simp [Dyadic.number, Dyadic.magnitude]
    rw [number, halves] at least
    obtain ⟨distance, -⟩ | ⟨distance, -⟩ := abs_cases (q - (2 ^ (-150 : ℤ) + 2 ^ (-150 : ℤ)))
    · have : (0 : ℚ) < 2 ^ (-150 : ℤ) := by positivity
      linarith
    · linarith
  · intro h n y hy
    by_cases zero : y.mantissa = 0
    · have number : y.number = 0 := by simp [Dyadic.number, Dyadic.magnitude, zero]
      rw [number, sub_zero, abs_of_nonneg positive]
    · have lowest : -149 ≤ y.exponent := (Format.canonical hy).lowest_le
      have one : (1 : ℚ) ≤ y.mantissa := by exact_mod_cast Nat.one_le_iff_ne_zero.2 zero
      have far : (2 : ℚ) ^ (-149 : ℤ) ≤ |y.number| := by
        rw [y.abs_number]
        calc (2 : ℚ) ^ (-149 : ℤ) ≤ 2 ^ y.exponent := zpow_le_zpow_right₀ (by norm_num) lowest
          _ ≤ y.magnitude := le_mul_of_one_le_left (by positivity) one
      have apart := abs_sub_abs_le_abs_sub y.number q
      rw [abs_sub_comm, abs_of_nonneg positive] at apart
      linarith

namespace Build.Accepted

variable {p : LoopParam NodeId} {kind : ScalarKind} {step : Float}

/-- The step that is checked is a double greater than zero. -/
theorem double (h : Accepted p kind step) :
    ∃ d, ofFloat? step = some d ∧ d.negative = false ∧ d.mantissa ≠ 0 := by
  have finite := h.finite
  rw [isFinite_eq, Option.isSome_iff_exists] at finite
  obtain ⟨d, hd⟩ := finite
  refine ⟨d, hd, ?_, ?_⟩
  · rw [h.step_eq, ofFloat?_abs] at hd
    obtain ⟨e, -, rfl⟩ := Option.map_eq_some_iff.1 hd
    rfl
  · have nonzero := h.nonzero
    rwa [beq_zero hd, beq_eq_false_iff_ne] at nonzero

theorem number_eq (h : Accepted p kind step) : number step = |number p.step| := by
  rw [h.step_eq, number_abs]

theorem whole_or_float (h : Accepted p kind step) : kind = .float ∨ kind = .int ∨ kind = .uint := by
  cases kind with
  | bool => exact absurd rfl h.numeric
  | int => exact .inr (.inl rfl)
  | uint => exact .inr (.inr rfl)
  | float => exact .inl rfl

/-- A step that is counted in floats is printed greater than zero. -/
theorem pos_of_float (h : Accepted p .float step) : 0 < literalNumber .float step := by
  obtain ⟨d, hd, positive, nonzero⟩ := h.double
  have number : literalNumber .float step = (shortest .up d).number := by
    simp only [literalNumber, hd, positive, Bool.false_eq_true, if_false]
  have near := (@between_shortest d .up (Format.canonical hd) nonzero).low
  have half := Dyadic.two_mul_below_le nonzero
  have := d.below_pos
  rw [number]
  linarith

/-- A step that is counted in whole numbers is printed without its fraction, and as the greatest
number of its kind if it is above. -/
theorem literalNumber_whole (h : Accepted p kind step) (whole : kind ≠ .float) :
    literalNumber kind step = (min ⌊|number p.step|⌋₊ (kind.wholeBound - 1) : Nat) := by
  obtain ⟨d, hd, positive, -⟩ := h.double
  have magnitude : |number p.step| = d.magnitude := by
    rw [← h.number_eq, number, hd, Option.map_some, Option.getD_some, Dyadic.number, positive,
      if_neg Bool.false_ne_true]
  rw [magnitude]
  obtain rfl | rfl | rfl := h.whole_or_float
  · exact absurd rfl whole
  · exact literalNumber_int hd positive
  · exact literalNumber_uint hd positive

theorem amount_nonneg (h : Accepted p kind step) : 0 ≤ literalNumber kind step := by
  by_cases float : kind = .float
  · subst float
    exact h.pos_of_float.le
  · rw [h.literalNumber_whole float]
    exact Nat.cast_nonneg _

/-- Nothing is added in whole numbers where the step is less than one. -/
theorem amount_eq_zero_iff (h : Accepted p kind step) :
    literalNumber kind step = 0 ↔ kind ≠ .float ∧ |number p.step| < 1 := by
  by_cases float : kind = .float
  · subst float
    exact iff_of_false h.pos_of_float.ne' fun hand => hand.1 rfl
  · have bound : kind.wholeBound - 1 ≠ 0 := by
      cases kind <;> decide
    rw [h.literalNumber_whole float, and_iff_right float, Nat.cast_eq_zero, ← Nat.floor_eq_zero]
    omega

/-- What is printed for a step is the step itself unless it is counted in whole numbers and is none
of them. -/
theorem denotes_iff (h : Accepted p kind step) :
    kind.Denotes (literalNumber kind step) step ↔
      kind = .float ∨ ∃ n : ℕ, |number p.step| = n ∧ n < kind.wholeBound := by
  by_cases float : kind = .float
  · subst float
    obtain ⟨d, hd, positive, nonzero⟩ := h.double
    exact iff_of_true ⟨d, hd, reads_literalNumber hd positive nonzero⟩ (.inl rfl)
  · have whole : kind.Denotes (literalNumber kind step) step ↔
        literalNumber kind step = |number p.step| := by
      rw [← h.number_eq]
      cases kind with
      | float => exact absurd rfl float
      | _ => exact Iff.rfl
    have bound : 0 < kind.wholeBound := by
      cases kind <;> decide
    rw [whole, h.literalNumber_whole float, or_iff_right float]
    constructor
    · intro same
      exact ⟨_, same.symm, by omega⟩
    · rintro ⟨n, same, hn⟩
      rw [same, Nat.floor_natCast, min_eq_left (by omega)]

/-- The amount that a loop adds is zero to the kind of its counter where it is less than one in whole
numbers, or nearer to zero than to any single. -/
theorem vanishes_iff (h : Accepted p kind step) :
    kind.Vanishes (literalNumber kind step) ↔
      if kind = .float then literalNumber kind step ≤ 2 ^ (-150 : ℤ) else |number p.step| < 1 := by
  by_cases float : kind = .float
  · subst float
    rw [if_pos rfl]
    exact vanishes_float h.amount_nonneg
  · rw [if_neg float]
    have zero := h.amount_eq_zero_iff
    rw [and_iff_right float] at zero
    rw [← zero]
    cases kind with
    | float => exact absurd rfl float
    | _ => exact Iff.rfl

theorem stepText_scalar (counter : String) (kind : ScalarKind) (condition : BinaryOp) (step : Float) :
    Statement.stepText counter (.scalar kind) condition step =
      if kind ≠ .float ∧ step == 1 then
        counter ++ if Statement.descends condition then "--" else "++"
      else
        counter ++ (if Statement.descends condition then " -= " else " += ") ++
          Dialect.literal kind step := rfl

/-- The update clause adds the amount or takes it away, as the condition says. -/
theorem moves (h : Accepted p kind step) (counter : String) :
    Moves kind counter (Statement.stepText counter p.type p.resolvedCondition step)
      (pace p.resolvedCondition (literalNumber kind step)) := by
  have text := numeral?_literal h.numeric step
  rw [h.type, stepText_scalar, pace]
  by_cases one : kind ≠ .float ∧ (step == 1) = true
  · obtain rfl := eq_one_of_beq one.2
    rw [if_pos one, literalNumber_one one.1 h.numeric]
    cases Statement.descends p.resolvedCondition
    · exact .increment
    · exact .decrement
  · rw [if_neg one]
    cases Statement.descends p.resolvedCondition
    · exact .add text
    · exact .subtract text

end Build.Accepted

/-! ### Loops -/

/-- What is said of the loop of a level: `kind` and `step` are those of its counter, `amount` is the
number that is printed for the step. -/
structure Progress (p : LoopParam NodeId) (kind : ScalarKind) (step : Float) (amount : ℚ) :
    Prop where
  /-- The update clause adds the amount or takes it away. -/
  moves (counter : String) :
    Moves kind counter (Statement.stepText counter p.type p.resolvedCondition step)
      (pace p.resolvedCondition amount)
  nonneg : 0 ≤ amount
  denotes_iff : kind.Denotes amount step ↔
    kind = .float ∨ ∃ n : ℕ, |number p.step| = n ∧ n < kind.wholeBound
  zero_iff : amount = 0 ↔ kind ≠ .float ∧ |number p.step| < 1
  vanishes_iff : kind.Vanishes amount ↔
    if kind = .float then amount ≤ 2 ^ (-150 : ℤ) else |number p.step| < 1
  /-- While the loop runs, each round takes the counter toward the end. -/
  toward {x y : ℚ} (nonzero : amount ≠ 0) (condition : p.resolvedCondition ≠ .ne)
    (running : p.resolvedCondition.Compares x y) :
    x < x + pace p.resolvedCondition amount ∧ x ≤ y ∨
      x + pace p.resolvedCondition amount < x ∧ y ≤ x
  /-- The loop leaves its range when it moves and its condition is no `!=`; a loop with this
  condition goes up and must meet its end. -/
  leaves_iff (x y : ℚ) :
    (∃ n : ℕ, ¬p.resolvedCondition.Compares (x + n * pace p.resolvedCondition amount) y) ↔
      ¬p.resolvedCondition.Compares x y ∨
        amount ≠ 0 ∧ (p.resolvedCondition ≠ .ne ∨ ∃ n : ℕ, x + n * amount = y)

namespace Build

variable {p : LoopParam NodeId} {kind : ScalarKind} {step : Float}

theorem Accepted.progress (h : Accepted p kind step) :
    Progress p kind step (literalNumber kind step) where
  moves := h.moves
  nonneg := h.amount_nonneg
  denotes_iff := h.denotes_iff
  zero_iff := h.amount_eq_zero_iff
  vanishes_iff := h.vanishes_iff
  toward nonzero := ShaderGraph.toward h.comparison h.ordered (lt_of_le_of_ne h.amount_nonneg nonzero.symm)
  leaves_iff _ _ := ShaderGraph.leaves_iff h.comparison h.ordered h.amount_nonneg

/-- The code of an end of a range; what is read for a constant is the constant as its kind has it. -/
def BoundCode (kind : ScalarKind) (bound : LoopBound NodeId) (e : Expr) : Prop :=
  ∀ v, bound = .value v →
    e = .literal kind v ∧ ∀ d : Dialect, kind.numeral? (e.text d) = some (literalNumber kind v)

variable {g : Generator} {env : Env} {s s' : BuildState} {bound : LoopBound NodeId} {e : Expr}
  {type : ValueType}

theorem boundCode_of_buildBound (numeric : kind ≠ .bool)
    (h : buildBound g type kind bound env s = .ok (e, s')) : BoundCode kind bound e := by
  rintro v rfl
  cases h
  exact ⟨rfl, fun _ => numeral?_literal numeric v⟩

/-- Every loop that is built counts by the number that is printed for its step, and leaves its range
where the number is not zero, unless its condition is `!=`. -/
theorem buildLevels_progress {id : NodeId} {body : Option NodeId} {level : Nat}
    {rest : List (LoopParam NodeId)}
    (h : buildLevels g id body level (p :: rest) env s = .ok ((), s')) :
    ∃ kind step counter start stop inner s₁, checkLevel p = .ok (kind, step) ∧
      addStatement (.loop counter p.type start p.resolvedCondition stop step inner) env s₁ =
        .ok ((), s') ∧
      BoundCode kind p.start start ∧ BoundCode kind p.stop stop ∧
      Progress p kind step (literalNumber kind step) := by
  unfold buildLevels at h
  obtain ⟨⟨kind, step⟩, checked, h⟩ := of_ofExcept h
  have accepted := of_checkLevel checked
  obtain ⟨surroundings, _, -, h⟩ := of_bind h
  obtain ⟨counter, _, -, h⟩ := of_bind h
  obtain ⟨-, _, -, h⟩ := of_bind h
  obtain ⟨start, _, hstart, h⟩ := of_bind h
  obtain ⟨stop, _, hstop, h⟩ := of_bind h
  obtain ⟨inner, _, -, h⟩ := of_bind h
  obtain ⟨-, s₁, -, h⟩ := of_bind h
  exact ⟨kind, step, counter, start, stop, inner, s₁, checked, h,
    boundCode_of_buildBound accepted.numeric hstart,
    boundCode_of_buildBound accepted.numeric hstop, accepted.progress⟩

/-- Whole numbers from zero below three, counted by `step`. -/
def upToThree (step : Float) : LoopParam NodeId := ⟨.value 0, .value 3, step, none, .int, none⟩

/-- A fragment that takes the numbers up to three, and is then black. -/
def counted (step : Float) : Graph := .ofNodes
  [.loop [upToThree step] none, .const .vec4 [0], .stack [⟨0⟩] (some ⟨1⟩)]

/-- A loop that counts by one leaves its range. -/
theorem upToThree_progress : ∃ s' kind step, buildLevels (generator 8) ⟨0⟩ none 0 [upToThree 1]
      (fragmentOf (counted 1)) (.start (.ofGraph (counted 1) .standard)) = .ok ((), s') ∧
    Progress (upToThree 1) kind step (literalNumber kind step) ∧ literalNumber kind step = 1 := by
  have accepted : (buildLevels (generator 8) ⟨0⟩ none 0 [upToThree 1] (fragmentOf (counted 1))
      (.start (.ofGraph (counted 1) .standard))).isOk = true := by decide +kernel
  obtain ⟨⟨_, s'⟩, h⟩ := ok_of_isOk accepted
  obtain ⟨kind, step, -, -, -, -, -, checked, -, -, -, progress⟩ := buildLevels_progress h
  have level := of_checkLevel checked
  obtain rfl : kind = .int := (ValueType.scalar.inj level.type).symm
  obtain rfl : step = 1 := level.step_eq.trans (eq_one_of_beq (by decide +kernel))
  exact ⟨s', .int, 1, h, progress, literalNumber_one (by decide) (by decide)⟩

/-- Whether a loop from `0` to `3` adds nothing to its counter. -/
def stepsByZero : List Statement → Bool
  | [.loop counter .int start .lt stop step []] =>
    counter == "i" && start.text .wgsl == "0" && stop.text .wgsl == "3" &&
      Statement.stepText "i" .int .lt step == "i += 0"
  | _ => false

theorem of_stepsByZero {ss : List Statement} (h : stepsByZero ss = true) :
    ∃ start stop step, ss = [.loop "i" .int start .lt stop step []] ∧ start.text .wgsl = "0" ∧
      stop.text .wgsl = "3" ∧ Statement.stepText "i" .int .lt step = "i += 0" := by
  unfold stepsByZero at h
  split at h
  · next counter start stop step =>
    simp only [Bool.and_eq_true, beq_iff_eq] at h
    obtain ⟨⟨⟨rfl, hstart⟩, hstop⟩, hstep⟩ := h
    exact ⟨start, stop, step, rfl, hstart, hstop, hstep⟩
  · cases h

/-- A loop over whole numbers that counts by a half is accepted, but stays where it starts. -/
theorem half_steps_stand_still :
    (build (counted 0.5) ⟨none, some ⟨2⟩, none⟩ .standard).isOk = true ∧
      ∃ s start stop step, run (.ofGraph (counted 0.5) .standard) [(.fragment, ⟨2⟩)] = .ok s ∧
        (s.stages.get .fragment).outer.statements = [.loop "i" .int start .lt stop step []] ∧
        ScalarKind.int.numeral? (start.text .wgsl) = some 0 ∧
        ScalarKind.int.numeral? (stop.text .wgsl) = some 3 ∧
        Moves .int "i" (Statement.stepText "i" .int .lt step) 0 ∧
        ∀ n : ℕ, BinaryOp.lt.Compares (0 + n * 0) 3 := by
  have built : leaves (fun s => stepsByZero (s.stages.get .fragment).outer.statements)
      (run (.ofGraph (counted 0.5) .standard) [(.fragment, ⟨2⟩)]) = true := by
    decide +kernel
  obtain ⟨s, hs, loop⟩ := of_leaves built
  obtain ⟨start, stop, step, statements, hstart, hstop, hstep⟩ := of_stepsByZero loop
  refine ⟨by decide +kernel, s, start, stop, step, hs, statements, ?_, ?_, ?_, fun n => ?_⟩
  · rw [hstart]
    decide +kernel
  · rw [hstop]
    decide +kernel
  · rw [hstep]
    have zero : ScalarKind.int.numeral? "0" = some 0 := by decide +kernel
    exact .add zero
  · rw [mul_zero, zero_add]
    exact zero_lt_three

end Build

end ShaderGraph
