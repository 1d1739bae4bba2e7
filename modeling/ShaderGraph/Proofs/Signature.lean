import Mathlib.Data.List.Nodup
import ShaderGraph.ProgramCache
import ShaderGraph.Proofs.Allocation
import ShaderGraph.Proofs.Twins

/-!
# Signatures

What the payload of a build says about its request and options.

* `ValueType.name_injective`: types that can be read by name have names of their own.
* `ProgramCache.payload_injective`: requests with equal payloads are equal, and options with equal
  payloads differ at most in the order in which they list attributes.
-/

namespace ShaderGraph

/-! ### Names of types -/

namespace ValueType

/-- The types that can be read by name. -/
def Nameable (t : ValueType) : Prop := ∃ name, ofName? name = some t

/-- The types with a name without brackets. -/
def plainTypes : List ValueType := aliases.map Prod.snd

theorem mem_plainTypes {cs : List Char} {t : ValueType} (h : ofPlainName? cs = some t) :
    t ∈ plainTypes := by
  obtain ⟨before, after, split, -⟩ := List.lookup_eq_some_iff.1 h
  rw [plainTypes, split]
  exact List.mem_map_of_mem (List.mem_append_right _ (.head _))

/-- A type that can be read by name is plain or an array of plain ones. -/
theorem Nameable.cases {t : ValueType} (h : t.Nameable) :
    t ∈ plainTypes ∨ ∃ e ∈ plainTypes, ∃ n, t = .array e n := by
  obtain ⟨name, h⟩ := h
  unfold ofName? at h
  dsimp only at h
  split at h
  · exact .inl (mem_plainTypes h)
  · split at h
    · cases h
    · split at h
      · next n e hn he =>
        cases h
        exact .inr ⟨e, mem_plainTypes he, n, rfl⟩
      · cases h

theorem plain_injective : ∀ t ∈ plainTypes, ∀ t' ∈ plainTypes, t.name = t'.name → t = t' := by
  decide

theorem plain_bracketless : ∀ t ∈ plainTypes, '[' ∉ t.name.toList := by
  decide

/-- What stands before the first item that is not in two prefixes tells them apart. -/
theorem prefixes_eq {c : Char} {as bs cs ds : List Char} (ha : c ∉ as) (hb : c ∉ bs)
    (h : as ++ c :: cs = bs ++ c :: ds) : as = bs ∧ cs = ds := by
  induction as generalizing bs with
  | nil =>
    cases bs with
    | nil => exact ⟨rfl, (List.cons.inj h).2⟩
    | cons b bs => exact absurd (List.cons.inj h).1 fun e => hb (e ▸ .head _)
  | cons a as ih =>
    cases bs with
    | nil => exact absurd (List.cons.inj h).1.symm fun e => ha (e ▸ .head _)
    | cons b bs =>
      obtain ⟨rfl, rest⟩ := List.cons.inj h
      obtain ⟨rfl, rfl⟩ := ih (fun hc => ha (.tail _ hc)) (fun hc => hb (.tail _ hc)) rest
      exact ⟨rfl, rfl⟩

theorem toList_name_array (e : ValueType) (n : UInt32) :
    (array e n).name.toList = e.name.toList ++ '[' :: (toString n.toNat ++ "]").toList := by
  simp [name]

/-- Types that can be read by name have names of their own. -/
theorem name_injective {t t' : ValueType} (h : t.Nameable) (h' : t'.Nameable)
    (hn : t.name = t'.name) :
    t = t' := by
  have chars := congrArg String.toList hn
  rcases h.cases with plain | ⟨e, he, n, rfl⟩
  · rcases h'.cases with plain' | ⟨e', he', n', rfl⟩
    · exact plain_injective t plain t' plain' hn
    · rw [toList_name_array] at chars
      exact absurd (chars ▸ List.mem_append_right _ (.head _)) (plain_bracketless t plain)
  · rcases h'.cases with plain' | ⟨e', he', n', rfl⟩
    · rw [toList_name_array] at chars
      exact absurd (chars ▸ List.mem_append_right _ (.head _)) (plain_bracketless t' plain')
    · rw [toList_name_array, toList_name_array] at chars
      obtain ⟨elements, counts⟩ :=
        prefixes_eq (plain_bracketless e he) (plain_bracketless e' he') chars
      have element := plain_injective e he e' he' (String.toList_injective elements)
      have count := NameTable.toString_injective
        ((String.append_left_inj "]").1 (String.toList_injective counts))
      rw [element, UInt32.toNat_inj.1 count]

end ValueType

/-! ### Canonical values -/

namespace Json

variable {α : Type}

theorem lookup_member (m : String × α) (ms : List (String × α)) (k : String) :
    (m :: ms).lookup k = if k = m.1 then some m.2 else ms.lookup k := by
  rw [List.lookup_cons]
  split <;> simp_all

theorem lookup_insertMember (m : String × Json) (ms : List (String × Json)) (k : String) :
    (insertMember m ms).lookup k = if k = m.1 then some m.2 else ms.lookup k := by
  induction ms with
  | nil => exact lookup_member m [] k
  | cons n rest ih =>
    unfold insertMember
    split
    · exact lookup_member m (n :: rest) k
    · split
      · next same =>
        rw [lookup_member, lookup_member, ← same]
        split <;> rfl
      · next other =>
        rw [lookup_member, lookup_member, ih]
        split
        · next first =>
          rw [if_neg fun e => other (e.symm.trans first)]
        · rfl

/-- Sorting the members changes nothing about what a name stands for. -/
theorem lookup_sortMembers (ms : List (String × Json)) (k : String) :
    (sortMembers ms).lookup k = ms.reverse.lookup k := by
  have all : ∀ sorted, (ms.foldl (fun sorted m => insertMember m sorted) sorted).lookup k =
      (ms.reverse.lookup k).or (sorted.lookup k) := by
    induction ms with
    | nil => exact fun _ => rfl
    | cons m rest ih =>
      intro sorted
      rw [List.foldl_cons, ih, List.reverse_cons, List.lookup_append, Option.or_assoc,
        lookup_insertMember, lookup_member]
      split <;> rfl
  rw [sortMembers, all, List.lookup_nil, Option.or_none]

theorem lookup_map {β : Type} (f : α → β) (ms : List (String × α)) (k : String) :
    (ms.map fun m => (m.1, f m.2)).lookup k = (ms.lookup k).map f := by
  induction ms with
  | nil => rfl
  | cons m rest ih =>
    rw [List.map_cons, lookup_member, lookup_member, ih]
    split <;> rfl

theorem lookup_eq_find? (ms : List (String × α)) (k : String) :
    ms.lookup k = OrderedMap.find? k ms := by
  induction ms with
  | nil => rfl
  | cons m rest ih => rw [lookup_member, OrderedMap.find?, ih]

/-- Where no name is repeated, the order does not matter. -/
theorem lookup_reverse {ms : List (String × α)} (h : (ms.map Prod.fst).Nodup) (k : String) :
    ms.reverse.lookup k = ms.lookup k := by
  induction ms with
  | nil => rfl
  | cons m rest ih =>
    obtain ⟨fresh, rest'⟩ := List.nodup_cons.1 h
    rw [List.reverse_cons, List.lookup_append, ih rest', lookup_member, lookup_member,
      List.lookup_nil]
    split
    · next first =>
      have absent : rest.lookup k = none := by
        rw [List.lookup_eq_none_iff]
        exact fun p hp => bne_iff_ne.2 fun e => fresh (first ▸ e ▸ List.mem_map_of_mem hp)
      rw [absent]
      rfl
    · exact Option.or_none

theorem canonicalMembers_eq (ms : List (String × Json)) :
    canonicalMembers ms = ms.map fun m => (m.1, m.2.canonical) := by
  induction ms with
  | nil => rfl
  | cons m rest ih =>
    exact congrArg ((m.1, m.2.canonical) :: ·) ih

theorem canonicalItems_eq (vs : List Json) : canonicalItems vs = vs.map canonical := by
  induction vs with
  | nil => rfl
  | cons v rest ih => exact congrArg (v.canonical :: ·) ih

/-- Values that are equal up to the order of members have members of the same names. -/
theorem get?_of_canonical {ms ms' : List (String × Json)}
    (h : (Json.object ms).canonical = (Json.object ms').canonical) (k : String) :
    (ms.reverse.lookup k).map canonical = (ms'.reverse.lookup k).map canonical := by
  have sorted : sortMembers (canonicalMembers ms) = sortMembers (canonicalMembers ms') :=
    Json.object.inj h
  have found : ∀ ms : List (String × Json),
      (sortMembers (canonicalMembers ms)).lookup k = (ms.reverse.lookup k).map canonical := by
    intro ms
    rw [lookup_sortMembers, canonicalMembers_eq, ← List.map_reverse, lookup_map]
  rw [← found, ← found, sorted]

@[simp] theorem canonical_string (text : String) : (string text).canonical = string text := rfl

@[simp] theorem canonical_bool (b : Bool) : (bool b).canonical = bool b := rfl

@[simp] theorem canonical_nat (n : Nat) : (nat n).canonical = nat n := rfl

@[simp] theorem canonical_ofOption (f : α → Json) (a : Option α) :
    (ofOption f a).canonical = ofOption (fun a => (f a).canonical) a := by
  cases a <;> rfl

@[simp] theorem canonical_ofList (f : α → Json) (as : List α) :
    (ofList f as).canonical = ofList (fun a => (f a).canonical) as := by
  exact congrArg array ((canonicalItems_eq _).trans List.map_map)

theorem nat_injective : Function.Injective nat := by
  intro m n h
  simp only [nat, Json.number.injEq, Json.Number.int.injEq] at h
  exact Int.ofNat_inj.1 h

end Json

/-! ### Payloads -/

/-- Settings that list each attribute once and with a type that can be read by name. -/
structure BuildOptions.Listed (o : BuildOptions) : Prop where
  once : o.attributes.keys.Nodup
  named : ∀ t ∈ o.attributes.values, t.Nameable

theorem BuildOptions.Listed.named_of_get? {o : BuildOptions} (h : o.Listed) {k : String}
    {t : ValueType}
    (ht : o.attributes.get? k = some t) : t.Nameable := by
  refine h.named t ?_
  rw [OrderedMap.get?, ← Json.lookup_eq_find?] at ht
  obtain ⟨before, after, split, -⟩ := List.lookup_eq_some_iff.1 ht
  rw [OrderedMap.values, split]
  exact List.mem_map_of_mem (List.mem_append_right _ (.head _))

namespace ProgramCache

theorem root_injective {root root' : Option NodeId}
    (h : Json.ofOption (fun id : NodeId => .nat id.index) root =
      Json.ofOption (fun id : NodeId => .nat id.index) root') : root = root' := by
  cases root with
  | none =>
    cases root' with
    | none => rfl
    | some id' => cases h
  | some id =>
    cases root' with
    | none => cases h
    | some id' => exact congrArg (fun i => some (NodeId.mk i)) (Json.nat_injective h)

theorem request_injective {r r' : BuildRequest} (h : r.toJson.canonical = r'.toJson.canonical) :
    r = r' := by
  have field := fun k => Json.get?_of_canonical h k
  have vertex : r.vertex = r'.vertex :=
    root_injective (by simpa [Json.lookup_member] using field "vertex")
  have fragment : r.fragment = r'.fragment :=
    root_injective (by simpa [Json.lookup_member] using field "fragment")
  have compute : r.compute = r'.compute :=
    root_injective (by simpa [Json.lookup_member] using field "compute")
  obtain ⟨_, _, _⟩ := r
  obtain ⟨_, _, _⟩ := r'
  simp_all

theorem workgroup_injective {w w' : WorkgroupSize}
    (h : Json.ofList (fun n : UInt32 => .nat n.toNat) [w.x, w.y, w.z] =
      Json.ofList (fun n : UInt32 => .nat n.toNat) [w'.x, w'.y, w'.z]) : w = w' := by
  have extents : [w.x, w.y, w.z].map (fun n => Json.nat n.toNat) =
      [w'.x, w'.y, w'.z].map fun n => Json.nat n.toNat := Json.array.inj h
  have equal := List.map_injective_iff.2
    (fun m n hn => UInt32.toNat_inj.1 (Json.nat_injective hn)) extents
  obtain ⟨_, _, _⟩ := w
  obtain ⟨_, _, _⟩ := w'
  simp_all

theorem dialect_injective {d d' : Dialect} (h : d.name = d'.name) : d = d' := by
  cases d <;> cases d' <;> first | rfl | exact absurd h (by decide)

/-- The name of the type of an attribute. -/
theorem lookup_attributes {o : BuildOptions} (hl : o.Listed) (k : String) :
    (o.attributes.entries.map fun a => (a.1, Json.string a.2.name)).reverse.lookup k =
      (o.attributes.get? k).map fun t => Json.string t.name := by
  rw [Json.lookup_reverse, Json.lookup_map (fun t : ValueType => Json.string t.name),
    Json.lookup_eq_find?]
  · rfl
  · rw [List.map_map]
    exact hl.once

theorem attributes_injective {o o' : BuildOptions} (hl : o.Listed) (hl' : o'.Listed)
    (h : (Json.object (o.attributes.entries.map fun a => (a.1, Json.string a.2.name))).canonical =
      (Json.object (o'.attributes.entries.map fun a => (a.1, Json.string a.2.name))).canonical)
    (k : String) : o.attributes.get? k = o'.attributes.get? k := by
  have names := Json.get?_of_canonical h k
  rw [lookup_attributes hl, lookup_attributes hl'] at names
  cases ht : o.attributes.get? k with
  | none =>
    cases ht' : o'.attributes.get? k with
    | none => rfl
    | some t' => simp [ht, ht'] at names
  | some t =>
    cases ht' : o'.attributes.get? k with
    | none => simp [ht, ht'] at names
    | some t' =>
      have name : t.name = t'.name := by simpa [ht, ht'] using names
      exact congrArg some (ValueType.name_injective (hl.named_of_get? ht)
        (hl'.named_of_get? ht') name)

/-- Options with one payload differ at most in the order in which they list attributes. -/
theorem options_injective {o o' : BuildOptions} (h : o.toJson.canonical = o'.toJson.canonical)
    (hl : o.Listed) (hl' : o'.Listed) : o.Twin True o' := by
  have field := fun k => Json.get?_of_canonical h k
  have dialect : o.dialect = o'.dialect :=
    dialect_injective (by simpa [Json.lookup_member] using field "dialect")
  have workgroup : Json.ofList (fun n : UInt32 => .nat n.toNat)
    [o.workgroup.x, o.workgroup.y, o.workgroup.z] =
      Json.ofList (fun n : UInt32 => .nat n.toNat)
        [o'.workgroup.x, o'.workgroup.y, o'.workgroup.z] := by
    simpa [Json.lookup_member] using field "workgroupSize"
  refine ⟨fun _ => dialect, fun _ => trivial, attributes_injective hl hl' ?_,
    workgroup_injective workgroup, ?_, ?_⟩
  · simpa [Json.lookup_member] using field "attributes"
  · exact Json.nat_injective (by simpa [Json.lookup_member] using field "maxSetupDepth")
  · simpa [Json.lookup_member] using field "validate"

/-- The payload tells builds apart. -/
theorem payload_injective {r r' : BuildRequest} {o o' : BuildOptions}
    (h : payload r o = payload r' o')
    (hl : o.Listed) (hl' : o'.Listed) : r = r' ∧ o.Twin True o' := by
  have field := fun k => Json.get?_of_canonical h k
  have request : r.toJson.canonical = r'.toJson.canonical := by
    simpa [Json.lookup_member] using field "request"
  have options : o.toJson.canonical = o'.toJson.canonical := by
    simpa [Json.lookup_member] using field "options"
  exact ⟨request_injective request, options_injective options hl hl'⟩

end ProgramCache

end ShaderGraph
