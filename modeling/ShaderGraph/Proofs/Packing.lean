import ShaderGraph.Proofs.Offsets

/-!
# Packed defaults

What a buffer of uniforms holds after the defaults of its members were written into it.

* `ComponentAt` says which component of the default of a member belongs at which address, and
  `Encodes` what the four bytes of a component are.
* `writes` are the words that `packMember` writes. They lie inside the member, apart from one
  another (`pairwise_writes`), and the members lie apart (`InOrder`), so that no word is written
  over another one (`getElem?_writeAll_of_mem`).
* `pack_exact` puts this together: `pack` gives a buffer of the size of the layout that holds
  every component at its address and zero everywhere else.
-/

namespace ShaderGraph.Layout

/-! ### Components and their addresses -/

/-- The component of a default at an index: one value stands for all of them, otherwise what is
missing is zero. -/
def spread (value : List Float32) (i : Nat) : Float32 :=
  match value with
  | [v] => v
  | vs => vs.getD i 0

/-- The entry of the default of a matrix with `n` columns: one value stands for the diagonal,
otherwise the columns follow one another and what is missing is zero. -/
def matrixEntry (value : List Float32) (n column row : Nat) : Float32 :=
  match value with
  | [v] => if column = row then v else 0
  | vs => vs.getD (n * column + row) 0

/-- A component of the default of a member belongs at an address. -/
inductive ComponentAt (m : Placed) : Float32 → Nat → Prop
  | plain {i : Nat} (columns : m.type.columns = none) (inside : i < m.type.components.toNat) :
      ComponentAt m (spread m.value i) (m.offset + 4 * i)
  | entry {w : Width} {column row : Nat} (type : m.type = .matrix w)
      (column_lt : column < w.toNat) (row_lt : row < w.toNat) :
      ComponentAt m (matrixEntry m.value w.toNat column row) (m.offset + 16 * column + 4 * row)

/-- The number that some bytes denote, the least one first. -/
def littleEndian : List UInt8 → Nat
  | [] => 0
  | b :: rest => b.toNat + 256 * littleEndian rest

/-- Four bytes hold a component as a scalar of a kind: a whole number rounded toward zero and
kept in range, in two's complement if it has a sign, or the bits of a float. -/
def Encodes (kind : ScalarKind) (v : Float32) (bytes : List UInt8) : Prop :=
  bytes.length = 4 ∧
    match kind with
    | .int => (littleEndian bytes : Int) = v.toInt32.toInt % UInt32.size
    | .uint => littleEndian bytes = v.toUInt32.toNat
    | .float => littleEndian bytes = v.toBits.toNat
    | .bool => False

theorem littleEndian_wordBytes (w : UInt32) : littleEndian (wordBytes w) = w.toNat := by
  have small := w.toNat_lt
  simp only [littleEndian, wordBytes, UInt32.toNat_toUInt8, UInt32.toNat_shiftRight,
    Nat.shiftRight_eq_div_pow]
  simp
  omega

theorem toNat_toUInt32 (v : Int32) : (v.toUInt32.toNat : Int) = v.toInt % UInt32.size := by
  have same : v.toInt = v.toUInt32.toBitVec.toInt := rfl
  have small : (v.toUInt32.toNat : Int) < UInt32.size := by exact_mod_cast v.toUInt32.toNat_lt
  rw [same, BitVec.toInt_eq_toNat_bmod, UInt32.toNat_toBitVec]
  exact (Int.bmod_emod.trans (Int.emod_eq_of_lt (Int.natCast_nonneg _) small)).symm

/-- The word of a component encodes it. -/
theorem encodes_componentWord {t : ValueType} {kind : ScalarKind} (h : t.scalarKind = some kind)
    (shareable : t.isHostShareable = true) (v : Float32) :
    Encodes kind v (wordBytes (componentWord t v)) := by
  refine ⟨rfl, ?_⟩
  rw [littleEndian_wordBytes, componentWord, h]
  cases kind with
  | bool => simp [ValueType.isHostShareable, h] at shareable
  | int => exact toNat_toUInt32 _
  | uint => rfl
  | float => rfl

/-! ### Writing words -/

/-- Writes words at their addresses, one after the other. -/
def writeAll (bytes : List UInt8) (words : List (Nat × List UInt8)) : List UInt8 :=
  words.foldl (fun bytes w => overwrite bytes w.1 w.2) bytes

/-- Two words have no byte in common. -/
def Apart (w w' : Nat × List UInt8) : Prop :=
  w.1 + w.2.length ≤ w'.1 ∨ w'.1 + w'.2.length ≤ w.1

theorem getElem?_overwrite_of_outside {bytes word : List UInt8} {start k : Nat}
    (h : k < start ∨ start + word.length ≤ k) : (overwrite bytes start word)[k]? = bytes[k]? := by
  unfold overwrite
  split
  · next inside =>
    rw [List.append_assoc, List.getElem?_append, List.length_take, Nat.min_eq_left (by omega)]
    rcases h with before | behind
    · rw [if_pos before, List.getElem?_take_of_lt before]
    · rw [if_neg (by omega), List.getElem?_append_right (by omega), List.getElem?_drop]
      congr 1
      omega
  · rfl

theorem getElem?_overwrite_of_inside {bytes word : List UInt8} {start i : Nat}
    (inside : start + word.length ≤ bytes.length) (hi : i < word.length) :
    (overwrite bytes start word)[start + i]? = word[i]? := by
  rw [overwrite, if_pos inside, List.append_assoc, List.getElem?_append, List.length_take,
    Nat.min_eq_left (by omega), if_neg (by omega), Nat.add_sub_cancel_left,
    List.getElem?_append_left hi]

@[simp] theorem length_writeAll (bytes : List UInt8) (words : List (Nat × List UInt8)) :
    (writeAll bytes words).length = bytes.length := by
  induction words generalizing bytes with
  | nil => rfl
  | cons w rest ih => exact (ih _).trans (length_overwrite _ _ _)

/-- A byte outside all words stays. -/
theorem getElem?_writeAll_of_outside {bytes : List UInt8} {words : List (Nat × List UInt8)}
    {k : Nat} (h : ∀ w ∈ words, k < w.1 ∨ w.1 + w.2.length ≤ k) :
    (writeAll bytes words)[k]? = bytes[k]? := by
  induction words generalizing bytes with
  | nil => rfl
  | cons w rest ih =>
    exact (ih fun w hw => h w (.tail _ hw)).trans
      (getElem?_overwrite_of_outside (h w (.head _)))

/-- Of words that are apart, each stays as it was written. -/
theorem getElem?_writeAll_of_mem {bytes : List UInt8} {words : List (Nat × List UInt8)}
    {w : Nat × List UInt8} {i : Nat} (apart : words.Pairwise Apart) (hw : w ∈ words)
    (inside : w.1 + w.2.length ≤ bytes.length) (hi : i < w.2.length) :
    (writeAll bytes words)[w.1 + i]? = w.2[i]? := by
  induction words generalizing bytes with
  | nil => cases hw
  | cons w' rest ih =>
    obtain ⟨first, later⟩ := List.pairwise_cons.1 apart
    cases hw with
    | head =>
      show (writeAll (overwrite bytes w.1 w.2) rest)[w.1 + i]? = _
      rw [getElem?_writeAll_of_outside fun w' hw' => ?_, getElem?_overwrite_of_inside inside hi]
      have apart : w.1 + w.2.length ≤ w'.1 ∨ w'.1 + w'.2.length ≤ w.1 := first w' hw'
      omega
    | tail _ hw =>
      exact ih later hw (by rwa [length_overwrite])

/-- The bytes of such a word, read back. -/
theorem take_drop_writeAll {bytes : List UInt8} {words : List (Nat × List UInt8)}
    {w : Nat × List UInt8} (apart : words.Pairwise Apart) (hw : w ∈ words)
    (inside : w.1 + w.2.length ≤ bytes.length) :
    ((writeAll bytes words).drop w.1).take w.2.length = w.2 := by
  refine List.ext_getElem? fun i => ?_
  by_cases hi : i < w.2.length
  · rw [List.getElem?_take_of_lt hi, List.getElem?_drop,
      getElem?_writeAll_of_mem apart hw inside hi]
  · rw [List.getElem?_eq_none (by simp; omega), List.getElem?_eq_none (by omega)]

/-! ### The words of a member -/

/-- The words that hold the default of a member, with their addresses. -/
def writes (m : Placed) : List (Nat × List UInt8) :=
  (expand m.type m.value).zipIdx.map fun v =>
    (m.offset + componentOffset m.type v.2, wordBytes (componentWord m.type v.1))

theorem packMember_eq (bytes : List UInt8) (m : Placed) :
    packMember bytes m = writeAll bytes (writes m) := by
  rw [packMember, writeAll, writes, List.foldl_map]

theorem pack_eq (size : Nat) (members : List Placed) :
    pack size members = writeAll (List.replicate size 0) (members.flatMap writes) := by
  rw [pack, writeAll, List.foldl_flatMap]
  have each : packMember = fun bytes m => (writes m).foldl (fun b w => overwrite b w.1 w.2) bytes :=
    funext fun bytes => funext fun m => packMember_eq bytes m
  rw [each]

theorem getElem?_map_range {α : Type} (n : Nat) (f : Nat → α) (i : Nat) :
    ((List.range n).map f)[i]? = if i < n then some (f i) else none := by
  rw [List.getElem?_map]
  split
  · next h => rw [List.getElem?_range h, Option.map_some]
  · next h => rw [List.getElem?_eq_none (by simpa using h), Option.map_none]

/-- The components of the default of a scalar or vector. -/
theorem getElem?_expand_plain {t : ValueType} (h : t.columns = none) (value : List Float32)
    (i : Nat) : (expand t value)[i]? =
      if i < t.components.toNat then some (spread value i) else none := by
  match value with
  | [v] =>
    simp only [expand, h]
    exact List.getElem?_replicate
  | [] | _ :: _ :: _ =>
    simp only [expand]
    exact getElem?_map_range _ _ i

/-- The components of the default of a matrix, column by column. -/
theorem getElem?_expand_matrix (w : Width) (value : List Float32) (i : Nat) :
    (expand (.matrix w) value)[i]? =
      if i < w.toNat * w.toNat then some (matrixEntry value w.toNat (i / w.toNat) (i % w.toNat))
      else none := by
  have columns : (UInt32.ofNat w.toNat).toNat = w.toNat := by cases w <;> rfl
  have count : (UInt32.ofNat (w.toNat * w.toNat)).toNat = w.toNat * w.toNat := by cases w <;> rfl
  match value with
  | [v] =>
    simp only [expand, ValueType.columns, ValueType.components, columns, count]
    exact getElem?_map_range _ _ i
  | [] | _ :: _ :: _ =>
    simp only [expand, ValueType.components, count, matrixEntry, Nat.div_add_mod]
    exact getElem?_map_range _ _ i

theorem toNat_pos (w : Width) : 0 < w.toNat := by cases w <;> decide

theorem toNat_le (w : Width) : w.toNat ≤ 4 := by cases w <;> decide

/-- The index of an entry determines its column and row. -/
theorem entry_div_mod {w : Width} {column row : Nat} (hr : row < w.toNat) :
    (w.toNat * column + row) / w.toNat = column ∧ (w.toNat * column + row) % w.toNat = row := by
  constructor
  · rw [Nat.mul_add_div (toNat_pos w), Nat.div_eq_of_lt hr, Nat.add_zero]
  · rw [Nat.mul_add_mod, Nat.mod_eq_of_lt hr]

theorem entry_lt {n column row : Nat} (hc : column < n) (hr : row < n) :
    n * column + row < n * n :=
  calc n * column + row < n * column + n := Nat.add_lt_add_left hr _
    _ = n * (column + 1) := (Nat.mul_succ n column).symm
    _ ≤ n * n := Nat.mul_le_mul_left n hc

/-- A component belongs at an address exactly if it stands at an index of the default whose
address that is. -/
theorem componentAt_iff {m : Placed} {v : Float32} {address : Nat} :
    ComponentAt m v address ↔ ∃ i, (expand m.type m.value)[i]? = some v ∧
      m.offset + componentOffset m.type i = address := by
  constructor
  · rintro (⟨columns, inside⟩ | ⟨type, hc, hr⟩)
    · refine ⟨_, (getElem?_expand_plain columns _ _).trans (if_pos inside), ?_⟩
      rw [componentOffset, columns]
    · next w column row =>
      have split := @entry_div_mod _ column _ hr
      refine ⟨w.toNat * column + row, ?_, ?_⟩
      · rw [type, getElem?_expand_matrix, if_pos (entry_lt hc hr), split.1, split.2]
      · have columns : (UInt32.ofNat w.toNat).toNat = w.toNat := by cases w <;> rfl
        simp only [componentOffset, type, ValueType.columns, columns, split.1, split.2]
        omega
  · rintro ⟨i, found, rfl⟩
    cases type : m.type with
    | matrix w =>
      have columns : (UInt32.ofNat w.toNat).toNat = w.toNat := by cases w <;> rfl
      rw [type, getElem?_expand_matrix] at found
      split at found
      · next inside =>
        cases found
        have entry : ComponentAt m _ _ := .entry type (Nat.div_lt_of_lt_mul inside)
          (Nat.mod_lt i (toNat_pos w))
        simpa only [componentOffset, ValueType.columns, columns, Nat.add_assoc] using entry
      · cases found
    | _ =>
      have columns : m.type.columns = none := by rw [type]; rfl
      rw [getElem?_expand_plain columns] at found
      split at found
      · next inside =>
        cases found
        exact .plain columns inside
      · cases found

/-- The words that are written for a member are those of its components. -/
theorem mem_writes_iff {m : Placed} {w : Nat × List UInt8} :
    w ∈ writes m ↔
      ∃ v, ComponentAt m v w.1 ∧ w.2 = wordBytes (componentWord m.type v) := by
  simp only [writes, List.mem_map, List.mem_zipIdx_iff_getElem?, componentAt_iff]
  constructor
  · rintro ⟨⟨v, i⟩, found, rfl⟩
    exact ⟨v, ⟨i, found, rfl⟩, rfl⟩
  · rintro ⟨v, ⟨i, found, address⟩, word⟩
    exact ⟨(v, i), found, Prod.ext address word.symm⟩

/-! ### Words apart -/

theorem components_le_extent {t : ValueType} (columns : t.columns = none)
    (shareable : t.isHostShareable = true) : 4 * t.components.toNat ≤ (extent t).2 := by
  revert shareable
  cases t with
  | scalar k => cases k <;> decide
  | vector k w => cases k <;> cases w <;> decide
  | matrix w => cases columns
  | _ => exact fun h => absurd h (by simp [ValueType.isHostShareable, ValueType.scalarKind])

/-- A component lies inside its member. -/
theorem ComponentAt.within {m : Placed} {v : Float32} {address : Nat} (h : ComponentAt m v address)
    (shareable : m.type.isHostShareable = true) (sized : m.size = (extent m.type).2) :
    m.offset ≤ address ∧ address + 4 ≤ m.offset + m.size := by
  cases h with
  | plain columns inside =>
    have room := components_le_extent columns shareable
    omega
  | @entry w column row type hc hr =>
    have size : m.size = 16 * w.toNat := by rw [sized, type]; rfl
    have narrow := toNat_le w
    omega

/-- The components of a default lie one behind the other. -/
theorem componentOffset_lt (t : ValueType) {i j : Nat} (h : i < j) :
    componentOffset t i + 4 ≤ componentOffset t j := by
  unfold componentOffset
  split
  · next n columns =>
    have narrow : 0 < n.toNat ∧ n.toNat ≤ 4 := by
      cases t with
      | matrix w => cases w <;> cases columns <;> decide
      | _ => cases columns
    have split_i := Nat.div_add_mod i n.toNat
    have split_j := Nat.div_add_mod j n.toNat
    have row := Nat.mod_lt i narrow.1
    rcases Nat.eq_or_lt_of_le (Nat.div_le_div_right (c := n.toNat) (Nat.le_of_lt h)) with
      same | next
    · rw [same] at split_i ⊢
      omega
    · omega
  · omega

/-- The words of a member follow one another. -/
theorem pairwise_writes (m : Placed) : (writes m).Pairwise Apart := by
  rw [writes, List.pairwise_map, List.pairwise_iff_getElem]
  intro i j _ _ hij
  have behind := componentOffset_lt m.type hij
  simp only [List.getElem_zipIdx, Apart, Nat.zero_add]
  refine .inl ?_
  show _ + 4 ≤ _
  omega

section

variable {members : List Slot} (shareable : ∀ m ∈ members, m.type.isHostShareable = true)

include shareable

/-- The members that a layout places are those of the list. -/
theorem shareable_of_mem {m : Placed} (hm : m ∈ (layOut members).1) :
    m.type.isHostShareable = true := by
  have slot : m.toSlot ∈ (layOut members).1.map Placed.toSlot := List.mem_map_of_mem hm
  rw [show (layOut members).1.map Placed.toSlot = members from map_placeFrom 0 members] at slot
  exact shareable _ slot

/-- The words of a layout lie inside the member that they are written for. -/
theorem writes_within {m : Placed} (hm : m ∈ (layOut members).1) {w : Nat × List UInt8}
    (hw : w ∈ writes m) : m.offset ≤ w.1 ∧ w.1 + w.2.length ≤ m.offset + m.size := by
  obtain ⟨v, belongs, word⟩ := mem_writes_iff.1 hw
  have bounds := belongs.within (shareable_of_mem shareable hm)
    ((layOut_inOrder shareable).sized m hm)
  rw [word]
  exact bounds

/-- No word of a layout is written over another one. -/
theorem pairwise_flatMap_writes : ((layOut members).1.flatMap writes).Pairwise Apart := by
  refine List.pairwise_flatMap.2 ⟨fun m _ => pairwise_writes m, ?_⟩
  refine (layOut_inOrder shareable).apart.imp_of_mem fun {m m'} hm hm' apart w hw w' hw' => ?_
  have inside := writes_within shareable hm hw
  have inside' := writes_within shareable hm' hw'
  exact .inl (by omega)

/-- A buffer holds the defaults of the members at their places and nothing else. -/
structure HoldsExactly (size : Nat) (placed : List Placed) (bytes : List UInt8) : Prop where
  inOrder : InOrder 0 size placed
  length : bytes.length = size
  fits : ∀ m ∈ placed, ∀ w ∈ writes m, w.1 + w.2.length ≤ bytes.length
  /-- Every component of a default is encoded at its address in the kind of its member. -/
  components : ∀ m ∈ placed, ∀ v address, ComponentAt m v address → ∃ kind,
    m.type.scalarKind = some kind ∧ Encodes kind v ((bytes.drop address).take 4)
  zero : ∀ k < size,
    (∀ m ∈ placed, ∀ v address, ComponentAt m v address → k < address ∨ address + 4 ≤ k) →
    bytes[k]? = some 0

end

/-- For every list of members that uniforms may have, the members lie in order in the layout,
each at a multiple of its alignment, and `pack` gives a buffer of the size of the layout. No word
falls outside of it, every component of a default is encoded at its address in the kind of its
member, and every other byte is zero. -/
theorem pack_exact {members : List Slot} (shareable : ∀ m ∈ members, m.type.isHostShareable = true) :
    (layOut members).1.map Placed.toSlot = members ∧
      HoldsExactly (layOut members).2 (layOut members).1
        (pack (layOut members).2 (layOut members).1) := by
  let placed := (layOut members).1
  let size := (layOut members).2
  let bytes := pack size placed
  have inOrder : InOrder 0 size placed := layOut_inOrder shareable
  have length : bytes.length = size := length_pack size placed
  have fits : ∀ m ∈ placed, ∀ w ∈ writes m, w.1 + w.2.length ≤ bytes.length := fun m hm w hw =>
    length ▸ Nat.le_trans (writes_within shareable hm hw).2 (inOrder.within m hm).2
  refine ⟨map_placeFrom 0 members, inOrder, length, fits, ?_, ?_⟩
  · intro m hm v address belongs
    have possible := shareable_of_mem shareable hm
    obtain ⟨kind, hkind⟩ : ∃ kind, m.type.scalarKind = some kind := by
      cases hk : m.type.scalarKind with
      | some kind => exact ⟨kind, rfl⟩
      | none => simp [ValueType.isHostShareable, hk] at possible
    have written : (address, wordBytes (componentWord m.type v)) ∈ writes m :=
      mem_writes_iff.2 ⟨v, belongs, rfl⟩
    have room : address + 4 ≤ (List.replicate size (0 : UInt8)).length := by
      rw [List.length_replicate, ← length]
      exact fits m hm _ written
    have four : (bytes.drop address).take 4 = wordBytes (componentWord m.type v) := by
      rw [show bytes = _ from pack_eq size placed]
      exact take_drop_writeAll (pairwise_flatMap_writes shareable)
        (List.mem_flatMap.2 ⟨m, hm, written⟩) room
    exact ⟨kind, hkind, four ▸ encodes_componentWord hkind possible v⟩
  · intro k hk outside
    have apart : ∀ w ∈ placed.flatMap writes, k < w.1 ∨ w.1 + w.2.length ≤ k := by
      intro w hw
      obtain ⟨m, hm, hw⟩ := List.mem_flatMap.1 hw
      obtain ⟨v, belongs, word⟩ := mem_writes_iff.1 hw
      rw [word]
      exact outside m hm v w.1 belongs
    show bytes[k]? = some 0
    rw [show bytes = _ from pack_eq size placed, getElem?_writeAll_of_outside apart]
    exact List.getElem?_replicate_of_lt hk

/-- A point that one value fills, a rotation whose default is the identity, and a count. -/
def spinning : List Slot :=
  [⟨"point", .vec3, [2]⟩, ⟨"turn", .matrix .two, [1]⟩, ⟨"count", .uint, [3, 5]⟩]

/-- The second entry on the diagonal of the rotation is the float 1 at byte 36, the byte behind
the point belongs to nobody, and the count drops its second value. -/
theorem spinning_packed : (∀ m ∈ spinning, m.type.isHostShareable = true) ∧
    let bytes := pack (layOut spinning).2 (layOut spinning).1
    bytes.length = 64 ∧ Encodes .float 1 ((bytes.drop 36).take 4) ∧ bytes[12]? = some 0 ∧
      Encodes .uint 3 ((bytes.drop 48).take 4) := by
  have shareable : ∀ m ∈ spinning, m.type.isHostShareable = true := by decide
  obtain ⟨-, -, length, -, holds, zero⟩ := pack_exact shareable
  have placed : (layOut spinning).1 =
      [⟨⟨"point", .vec3, [2]⟩, 0, 12⟩, ⟨⟨"turn", .matrix .two, [1]⟩, 16, 32⟩,
        ⟨⟨"count", .uint, [3, 5]⟩, 48, 4⟩] := rfl
  rw [placed] at holds zero
  refine ⟨shareable, length, ?_, ?_, ?_⟩
  · obtain ⟨kind, hkind, encodes⟩ := holds _ (.tail _ (.head _)) _ _
      (@ComponentAt.entry _ .two 1 1 rfl (by decide) (by decide))
    cases hkind
    exact encodes
  · refine zero 12 (by decide) fun m hm v address belongs => ?_
    simp only [List.mem_cons, List.not_mem_nil, or_false] at hm
    rcases hm with rfl | rfl | rfl
    · exact .inr (belongs.within rfl rfl).2
    · exact .inl (Nat.lt_of_lt_of_le (by decide) (belongs.within rfl rfl).1)
    · exact .inl (Nat.lt_of_lt_of_le (by decide) (belongs.within rfl rfl).1)
  · obtain ⟨kind, hkind, encodes⟩ := holds _ (.tail _ (.tail _ (.head _))) _ _
      (.plain (i := 0) rfl (by decide))
    cases hkind
    exact encodes

end ShaderGraph.Layout
