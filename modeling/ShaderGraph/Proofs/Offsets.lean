import ShaderGraph.Dialect.Spelling
import ShaderGraph.Layout.Uniform

/-!
# Offsets of uniform members

`layOut` places the members of a block once for both dialects, and each dialect has rules of its
own for a block that it declares.

* `blockExtent?` is the alignment and the size that a type has in a uniform block, by the text
  that a program spells it with. The two dialects differ at matrices with two columns only.
* `Laid` is where the members of a declared block lie: each at the least multiple of its
  alignment that is not below the end of the one before.
* `offsets_agree_iff` says for every list of members when `layOut` gives the offsets of the
  declared block: always in GLSL, and in WGSL if and only if a matrix with two columns comes
  last and lies at a multiple of 16.
-/

namespace ShaderGraph.Layout

/-! ### Rules of the dialects -/

/-- The alignment and size of a type in a uniform block of GLSL. -/
def glslExtent? : String → Option (Nat × Nat)
  | "int" | "uint" | "float" => some (4, 4)
  | "ivec2" | "uvec2" | "vec2" => some (8, 8)
  | "ivec3" | "uvec3" | "vec3" => some (16, 12)
  | "ivec4" | "uvec4" | "vec4" => some (16, 16)
  | "mat2" => some (16, 32)
  | "mat3" => some (16, 48)
  | "mat4" => some (16, 64)
  | _ => none

/-- The alignment and size of a type in a uniform block of WGSL. -/
def wgslExtent? : String → Option (Nat × Nat)
  | "i32" | "u32" | "f32" => some (4, 4)
  | "vec2<i32>" | "vec2<u32>" | "vec2<f32>" => some (8, 8)
  | "vec3<i32>" | "vec3<u32>" | "vec3<f32>" => some (16, 12)
  | "vec4<i32>" | "vec4<u32>" | "vec4<f32>" => some (16, 16)
  | "mat2x2<f32>" => some (8, 16)
  | "mat3x3<f32>" => some (16, 48)
  | "mat4x4<f32>" => some (16, 64)
  | _ => none

/-- The alignment and size of a type in a uniform block, by its text. -/
def blockExtent? : Dialect → String → Option (Nat × Nat)
  | .glsl => glslExtent?
  | .wgsl => wgslExtent?

/-- `start` is the least multiple of `alignment` that is not below `stop`. -/
structure Next (alignment stop start : Nat) : Prop where
  above : stop ≤ start
  aligned : alignment ∣ start
  least : ∀ n, stop ≤ n → alignment ∣ n → start ≤ n

/-- The members of a block, by the texts of their types, lie at these offsets behind `stop`, and
the last one ends at the last number. -/
inductive Laid (d : Dialect) : Nat → List String → List Nat → Nat → Prop
  | nil {stop : Nat} : Laid d stop [] [] stop
  | cons {stop start last alignment size : Nat} {type : String} {types : List String}
      {starts : List Nat} (extent : blockExtent? d type = some (alignment, size))
      (next : Next alignment stop start) (rest : Laid d (start + size) types starts last) :
      Laid d stop (type :: types) (start :: starts) last

/-! ### Multiples -/

theorem le_alignUp {n alignment : Nat} (h : 0 < alignment) : n ≤ alignUp n alignment := by
  have split := Nat.div_add_mod (n + alignment - 1) alignment
  have small := Nat.mod_lt (n + alignment - 1) h
  rw [alignUp, Nat.mul_comm]
  omega

/-- What `alignUp` gives is the next multiple. -/
theorem next_alignUp {alignment : Nat} (h : 0 < alignment) (n : Nat) :
    Next alignment n (alignUp n alignment) where
  above := le_alignUp h
  aligned := alignUp_dvd n alignment
  least := by
    rintro m above ⟨k, rfl⟩
    have bound : (n + alignment - 1) / alignment ≤ k :=
      Nat.le_of_lt_succ (Nat.div_lt_of_lt_mul (by rw [Nat.mul_succ]; omega))
    rw [alignUp, Nat.mul_comm]
    exact Nat.mul_le_mul_left _ bound

theorem Next.unique {alignment stop start start' : Nat} (h : Next alignment stop start)
    (h' : Next alignment stop start') : start = start' :=
  Nat.le_antisymm (h.least _ h'.above h'.aligned) (h'.least _ h.above h.aligned)

/-- The members of a block have one place each. -/
theorem Laid.unique {d : Dialect} {stop last last' : Nat} {types : List String}
    {starts starts' : List Nat} (h : Laid d stop types starts last)
    (h' : Laid d stop types starts' last') : starts = starts' ∧ last = last' := by
  induction h generalizing starts' last' with
  | nil => cases h' with | nil => exact ⟨rfl, rfl⟩
  | cons extent next _ ih =>
    cases h' with
    | cons extent' next' rest' =>
      cases extent.symm.trans extent'
      cases next.unique next'
      obtain ⟨rfl, rfl⟩ := ih rest'
      exact ⟨rfl, rfl⟩

/-! ### Extents of types -/

/-- The alignment and size of a type that a uniform may have, in the declared block. -/
def declaredExtent : Dialect → ValueType → Nat × Nat
  | .wgsl, .matrix .two => (8, 16)
  | _, t => extent t

/-- The text of a type has the extent of the type. -/
theorem blockExtent?_spelling (d : Dialect) {t : ValueType} (h : t.isHostShareable = true) :
    blockExtent? d (d.spelling t) = some (declaredExtent d t) := by
  cases t with
  | scalar k => cases d <;> cases k <;> first | rfl | cases h
  | vector k w => cases d <;> cases k <;> cases w <;> first | rfl | cases h
  | matrix w => cases d <;> cases w <;> rfl
  | _ => cases h

theorem extent_fst {t : ValueType} (h : t.isHostShareable = true) :
    (extent t).1 ∣ 16 ∧ 0 < (extent t).1 := by
  revert h
  cases t with
  | scalar k => cases k <;> decide
  | vector k w => cases k <;> cases w <;> decide
  | matrix w => cases w <;> decide
  | _ => exact fun h => absurd h (by simp [ValueType.isHostShareable, ValueType.scalarKind])

/-- The layout differs from the dialects at matrices with two columns in WGSL only. -/
theorem declaredExtent_of_not {d : Dialect} {t : ValueType}
    (h : ¬ (d = .wgsl ∧ t = .matrix .two)) : declaredExtent d t = extent t := by
  unfold declaredExtent
  split
  · exact absurd ⟨rfl, rfl⟩ h
  · rfl

/-- In a declared block a type never asks for more than in the layout. -/
theorem declaredExtent_le (d : Dialect) (t : ValueType) :
    (declaredExtent d t).1 ∣ (extent t).1 ∧ (declaredExtent d t).2 ≤ (extent t).2 := by
  unfold declaredExtent
  split
  · decide
  · exact ⟨Nat.dvd_refl _, Nat.le_refl _⟩

theorem declaredExtent_fst (d : Dialect) {t : ValueType} (h : t.isHostShareable = true) :
    (declaredExtent d t).1 ∣ 16 ∧ 0 < (declaredExtent d t).1 :=
  have dvd := (declaredExtent_le d t).1
  have whole := extent_fst h
  ⟨Nat.dvd_trans dvd whole.1, Nat.pos_of_dvd_of_pos dvd whole.2⟩

/-! ### Places -/

/-- The members of a list of placed ones lie in order between two offsets, each at a multiple of
its alignment. -/
structure InOrder (start stop : Nat) (placed : List Placed) : Prop where
  apart : placed.Pairwise fun m m' => m.offset + m.size ≤ m'.offset
  within : ∀ m ∈ placed, start ≤ m.offset ∧ m.offset + m.size ≤ stop
  aligned : ∀ m ∈ placed, (extent m.type).1 ∣ m.offset
  sized : ∀ m ∈ placed, m.size = (extent m.type).2

theorem le_placeFrom {slots : List Slot} (h : ∀ s ∈ slots, s.type.isHostShareable = true)
    (start : Nat) : start ≤ (placeFrom start slots).2 := by
  induction slots generalizing start with
  | nil => exact Nat.le_refl _
  | cons s rest ih =>
    have above : start ≤ alignUp start (extent s.type).1 := le_alignUp (extent_fst (h s (.head _))).2
    have later := ih (fun s hs => h s (.tail _ hs))
      (alignUp start (extent s.type).1 + (extent s.type).2)
    exact Nat.le_trans above (Nat.le_trans (Nat.le_add_right _ _) later)

theorem placeFrom_inOrder {slots : List Slot} (h : ∀ s ∈ slots, s.type.isHostShareable = true)
    (start : Nat) : InOrder start (placeFrom start slots).2 (placeFrom start slots).1 := by
  induction slots generalizing start with
  | nil => exact ⟨.nil, by simp [placeFrom], by simp [placeFrom], by simp [placeFrom]⟩
  | cons s rest ih =>
    have shareable : ∀ s ∈ rest, s.type.isHostShareable = true := fun s hs => h s (.tail _ hs)
    have above : start ≤ alignUp start (extent s.type).1 := le_alignUp (extent_fst (h s (.head _))).2
    have later := ih shareable (alignUp start (extent s.type).1 + (extent s.type).2)
    have stop := le_placeFrom shareable (alignUp start (extent s.type).1 + (extent s.type).2)
    refine ⟨.cons (fun m hm => (later.within m hm).1) later.apart, ?_, ?_, ?_⟩
    · rintro m (_ | ⟨_, hm⟩)
      · exact ⟨above, stop⟩
      · have bounds := later.within m hm
        exact ⟨by omega, bounds.2⟩
    · rintro m (_ | ⟨_, hm⟩)
      · exact alignUp_dvd _ _
      · exact later.aligned m hm
    · rintro m (_ | ⟨_, hm⟩)
      · rfl
      · exact later.sized m hm

/-- A block is not smaller than where its last member ends, and a multiple of 16. -/
theorem stop_le_layOut (slots : List Slot) :
    (placeFrom 0 slots).2 ≤ (layOut slots).2 ∧ 16 ∣ (layOut slots).2 :=
  ⟨Nat.le_trans (Nat.le_max_left _ 16) (le_alignUp (by decide)), alignUp_dvd _ _⟩

theorem layOut_inOrder {slots : List Slot} (h : ∀ s ∈ slots, s.type.isHostShareable = true) :
    InOrder 0 (layOut slots).2 (layOut slots).1 :=
  have placed := placeFrom_inOrder h 0
  { placed with
    within := fun m hm => (placed.within m hm).imp_right fun h => Nat.le_trans h (stop_le_layOut slots).1 }

/-! ### Agreement -/

/-- The texts of the types of members. -/
def spellings (d : Dialect) (slots : List Slot) : List String :=
  slots.map fun s => d.spelling s.type

theorem exists_laid (d : Dialect) {slots : List Slot}
    (h : ∀ s ∈ slots, s.type.isHostShareable = true) (stop : Nat) :
    ∃ starts last, Laid d stop (spellings d slots) starts last := by
  induction slots generalizing stop with
  | nil => exact ⟨[], stop, .nil⟩
  | cons s rest ih =>
    have shareable := h s (.head _)
    obtain ⟨starts, last, laid⟩ := ih (fun s hs => h s (.tail _ hs))
      (alignUp stop (declaredExtent d s.type).1 + (declaredExtent d s.type).2)
    exact ⟨_, last, .cons (blockExtent?_spelling d shareable)
      (next_alignUp (declaredExtent_fst d shareable).2 stop) laid⟩

/-- What `Laid` says of the first member. -/
theorem Laid.of_cons {d : Dialect} {s : Slot} {rest : List Slot} {stop last : Nat}
    {starts : List Nat} (h : Laid d stop (spellings d (s :: rest)) starts last)
    (shareable : s.type.isHostShareable = true) :
    ∃ start starts', starts = start :: starts' ∧ Next (declaredExtent d s.type).1 stop start ∧
      Laid d (start + (declaredExtent d s.type).2) (spellings d rest) starts' last := by
  cases h with
  | cons extent next laid =>
    have same := Option.some.inj (extent.symm.trans (blockExtent?_spelling d shareable))
    rw [← same]
    exact ⟨_, _, rfl, next, laid⟩

/-- A declared block ends where the layout does, or before. -/
theorem Laid.last_le {d : Dialect} {slots : List Slot} {stop stop' last : Nat} {starts : List Nat}
    (h : Laid d stop (spellings d slots) starts last)
    (shareable : ∀ s ∈ slots, s.type.isHostShareable = true) (hstop : stop ≤ stop') :
    last ≤ (placeFrom stop' slots).2 := by
  induction slots generalizing stop stop' starts with
  | nil => cases h with | nil => exact hstop
  | cons s rest ih =>
    obtain ⟨start, starts', rfl, next, laid⟩ := h.of_cons (shareable s (.head _))
    have above : stop' ≤ alignUp stop' (extent s.type).1 :=
      le_alignUp (extent_fst (shareable s (.head _))).2
    have smaller := declaredExtent_le d s.type
    have earlier : start ≤ alignUp stop' (extent s.type).1 :=
      next.least _ (Nat.le_trans hstop above) (Nat.dvd_trans smaller.1 (alignUp_dvd _ _))
    exact ih laid (fun s hs => shareable s (.tail _ hs)) (Nat.add_le_add earlier smaller.2)

/-- In WGSL a matrix with two columns comes last and lies at a multiple of 16. -/
def NoneShifted (d : Dialect) (slots : List Slot) (starts : List Nat) : Prop :=
  d = .wgsl → ∀ (i : Nat) (s : Slot), slots[i]? = some s → s.type = .matrix .two →
    i + 1 = slots.length ∧ ∃ start, starts[i]? = some start ∧ 16 ∣ start

theorem noneShifted_cons {d : Dialect} {s : Slot} {rest : List Slot} {start : Nat}
    {starts : List Nat} : NoneShifted d (s :: rest) (start :: starts) ↔
      (d = .wgsl ∧ s.type = .matrix .two → rest = [] ∧ 16 ∣ start) ∧
        NoneShifted d rest starts := by
  constructor
  · intro h
    refine ⟨fun ⟨hd, hs⟩ => ?_, fun hd i s' hi hs => ?_⟩
    · obtain ⟨last, start', hstart, dvd⟩ := h hd 0 s rfl hs
      cases hstart
      exact ⟨List.length_eq_zero_iff.1 (Nat.succ.inj last).symm, dvd⟩
    · obtain ⟨last, start', hstart, dvd⟩ := h hd (i + 1) s' hi hs
      exact ⟨Nat.succ.inj last, start', hstart, dvd⟩
  · rintro ⟨first, later⟩ hd i s' hi hs
    cases i with
    | zero =>
      cases hi
      obtain ⟨rfl, dvd⟩ := first ⟨hd, hs⟩
      exact ⟨rfl, start, rfl, dvd⟩
    | succ i =>
      obtain ⟨last, start', hstart, dvd⟩ := later hd i s' hi hs
      exact ⟨congrArg (· + 1) last, start', hstart, dvd⟩

/-- The next multiple of 8 is the next one of 16 as well if 16 divides it. -/
theorem Next.of_dvd {stop start : Nat} (h : Next 8 stop start) (dvd : 16 ∣ start) :
    Next 16 stop start where
  above := h.above
  aligned := dvd
  least n above aligned := h.least n above (Nat.dvd_trans (by decide) aligned)

/-- Behind a matrix with two columns the layout leaves a place free that WGSL does not. -/
theorem Laid.shifted {r : Slot} {rs : List Slot} {start last : Nat} {starts : List Nat}
    (dvd : 16 ∣ start) (shareable : r.type.isHostShareable = true)
    (h : Laid .wgsl (start + 16) (spellings .wgsl (r :: rs)) starts last) :
    (placeFrom (start + 32) (r :: rs)).1.map Placed.offset ≠ starts := by
  obtain ⟨next, starts', rfl, isNext, -⟩ := h.of_cons shareable
  intro same
  have above : start + 32 ≤ alignUp (start + 32) (extent r.type).1 :=
    le_alignUp (extent_fst shareable).2
  have equal : alignUp (start + 32) (extent r.type).1 = next := (List.cons.inj same).1
  have earlier : next ≤ start + 16 := isNext.least _ (Nat.le_refl _)
    (Nat.dvd_trans (declaredExtent_fst .wgsl shareable).1 (Nat.dvd_add dvd (Nat.dvd_refl _)))
  omega

/-- From one offset on, the layout and the declared block agree as long as no member is
shifted. -/
theorem Laid.agrees_iff {d : Dialect} {slots : List Slot} {stop last : Nat} {starts : List Nat}
    (h : Laid d stop (spellings d slots) starts last)
    (shareable : ∀ s ∈ slots, s.type.isHostShareable = true) :
    (placeFrom stop slots).1.map Placed.offset = starts ↔ NoneShifted d slots starts := by
  induction slots generalizing stop starts with
  | nil =>
    cases h with
    | nil => exact iff_of_true rfl fun _ i s hi => by cases hi
  | cons s rest ih =>
    obtain ⟨start, starts', rfl, next, laid⟩ := h.of_cons (shareable s (.head _))
    have behind : ∀ s ∈ rest, s.type.isHostShareable = true := fun s hs => shareable s (.tail _ hs)
    rw [noneShifted_cons]
    show alignUp stop (extent s.type).1 :: (placeFrom (alignUp stop (extent s.type).1 +
      (extent s.type).2) rest).1.map Placed.offset = start :: starts' ↔ _
    rw [List.cons.injEq]
    by_cases two : d = .wgsl ∧ s.type = .matrix .two
    · obtain ⟨rfl, hs⟩ := two
      rw [hs] at next laid ⊢
      have place : Next 16 stop (alignUp stop 16) := next_alignUp (by decide) stop
      cases rest with
      | nil =>
        cases laid
        refine ⟨fun ⟨same, _⟩ => ⟨fun _ => ⟨rfl, same ▸ place.aligned⟩, fun _ i s hi => by cases hi⟩,
          fun ⟨first, _⟩ => ⟨place.unique (next.of_dvd (first ⟨rfl, rfl⟩).2), rfl⟩⟩
      | cons r rs =>
        refine iff_of_false (fun ⟨same, later⟩ => ?_) fun ⟨first, _⟩ => ?_
        · have start16 : alignUp stop 16 = start := same
          have dvd : 16 ∣ start := start16 ▸ place.aligned
          refine laid.shifted dvd (behind r (.head _)) ?_
          rw [← start16] at laid ⊢
          exact later
        · cases (first ⟨rfl, rfl⟩).1
    · rw [declaredExtent_of_not two] at next laid
      have same : alignUp stop (extent s.type).1 = start :=
        (next_alignUp (extent_fst (shareable s (.head _))).2 stop).unique next
      rw [same, ih laid behind]
      exact ⟨fun later => ⟨fun h => absurd h two, later.2⟩, fun later => ⟨rfl, later.2⟩⟩

/-- For every list of members that uniforms may have, the layout gives the offsets of the block
that a program declares in GLSL, and in WGSL if and only if a matrix with two columns comes last
and lies at a multiple of 16. The size of the layout is a multiple of 16 in which every member
ends, by the layout and in the declared block. -/
theorem offsets_agree_iff (d : Dialect) {members : List Slot}
    (shareable : ∀ m ∈ members, m.type.isHostShareable = true) :
    ∃ starts last, Laid d 0 (spellings d members) starts last ∧
      ((layOut members).1.map Placed.offset = starts ↔ NoneShifted d members starts) ∧
      16 ∣ (layOut members).2 ∧ last ≤ (layOut members).2 ∧
      ∀ m ∈ (layOut members).1, m.offset + m.size ≤ (layOut members).2 := by
  obtain ⟨starts, last, laid⟩ := exists_laid d shareable 0
  have size := stop_le_layOut members
  exact ⟨starts, last, laid, laid.agrees_iff shareable, size.2,
    Nat.le_trans (laid.last_le shareable (Nat.le_refl 0)) size.1,
    fun m hm => ((layOut_inOrder shareable).within m hm).2⟩

/-- A scale, a point and a rotation behind them. -/
def rotation : List Slot :=
  [⟨"scale", .float, []⟩, ⟨"point", .vec3, []⟩, ⟨"turn", .matrix .two, []⟩]

/-- The rotation comes last and lies at 32, so WGSL and the layout agree. -/
theorem rotation_agrees : (∀ m ∈ rotation, m.type.isHostShareable = true) ∧
    ∃ starts last, Laid .wgsl 0 ["f32", "vec3<f32>", "mat2x2<f32>"] starts last ∧
      (layOut rotation).1.map Placed.offset = starts := by
  have shareable : ∀ m ∈ rotation, m.type.isHostShareable = true := by decide
  obtain ⟨starts, last, laid, agrees, -⟩ := offsets_agree_iff .wgsl shareable
  have places : Laid .wgsl 0 (spellings .wgsl rotation) [0, 16, 32] 48 :=
    .cons rfl (next_alignUp (by decide) 0) (.cons rfl (next_alignUp (by decide) 4)
      (.cons rfl (next_alignUp (by decide) 28) .nil))
  obtain ⟨rfl, -⟩ := laid.unique places
  refine ⟨shareable, _, last, laid, agrees.2 fun _ i s hi hs => ?_⟩
  match i, hi with
  | 0, hi | 1, hi => cases hi; cases hs
  | 2, _ => exact ⟨rfl, 32, rfl, by decide⟩

/-- A rotation between two scales: WGSL puts it at 8 and what follows at 24, the layout puts them
at 16 and 48. -/
theorem rotation_between_shifted :
    let members := [⟨"from", .float, []⟩, ⟨"turn", .matrix .two, []⟩, ⟨"to", .float, []⟩]
    (∀ m ∈ members, m.type.isHostShareable = true) ∧
      Laid .wgsl 0 (spellings .wgsl members) [0, 8, 24] 28 ∧
      (layOut members).1.map Placed.offset = [0, 16, 48] :=
  ⟨by decide, .cons rfl (next_alignUp (by decide) 0) (.cons rfl (next_alignUp (by decide) 4)
    (.cons rfl (next_alignUp (by decide) 24) .nil)), by decide⟩

end ShaderGraph.Layout
