import Mathlib.Data.List.Nodup
import ShaderGraph.Build.State

/-!
# Numbers of contexts and cache scopes

A frame table gives each sequence of context nodes one number (`FrameTable.number?`), numbers are
never given twice (`FrameTable.Regular`) and stay as they are when the table grows.
`Framed p t fs around` says that the frames `fs` are those of the context nodes `around` in the
plan `p`; then a value is looked up in the frames as it is among the nodes.

A parent is older than the scopes that share with it (`NodeCache.Regular`), so following parents
ends within its bound and the owner of a scope stays the same when the cache grows
(`NodeCache.Grows`). A key is `Counted` when a reference to its node was counted.
-/

namespace ShaderGraph

/-! ## Numbers of contexts -/

namespace FrameTable

/-- The number of a sequence of context nodes, innermost first. -/
def number? (t : FrameTable) : List NodeId → Option FrameId
  | [] => some .root
  | n :: rest =>
    (number? t rest).bind fun parent =>
      (t.extensions.find? fun e => e.1 = (parent, n)).map Prod.snd

/-- The sequences are numbered in the order in which they were met. -/
def Regular (t : FrameTable) : Prop :=
  t.extensions.map Prod.snd = (List.range t.extensions.length).map fun i => ⟨i + 1⟩

/-- The table goes on from another. -/
def Extends (t t' : FrameTable) : Prop := t.extensions <+: t'.extensions

theorem Extends.refl (t : FrameTable) : t.Extends t := List.prefix_rfl

theorem Extends.trans {t t' t'' : FrameTable} (h : t.Extends t') (h' : t'.Extends t'') :
    t.Extends t'' := List.IsPrefix.trans h h'

theorem regular_empty : empty.Regular := rfl

theorem find?_of_extends {t t' : FrameTable} (h : t.Extends t')
    {q : (FrameId × NodeId) × FrameId → Bool}
    {e : (FrameId × NodeId) × FrameId} (he : t.extensions.find? q = some e) :
    t'.extensions.find? q = some e := by
  obtain ⟨rest, hr⟩ := h
  rw [← hr, List.find?_append, he, Option.some_or]

theorem key_of_find? {es : List ((FrameId × NodeId) × FrameId)} {k : FrameId × NodeId}
    {e : (FrameId × NodeId) × FrameId} (he : (es.find? fun e => e.1 = k) = some e) : e.1 = k := by
  simpa using List.find?_some he

/-- A sequence keeps its number. -/
theorem number?_of_extends {t t' : FrameTable} (h : t.Extends t') {around : List NodeId}
    {id : FrameId} (hn : t.number? around = some id) : t'.number? around = some id := by
  induction around generalizing id with
  | nil => exact hn
  | cons n rest ih =>
    simp only [number?, Option.bind_eq_some_iff, Option.map_eq_some_iff] at hn ⊢
    obtain ⟨parent, hp, e, he, rfl⟩ := hn
    exact ⟨parent, ih hp, e, find?_of_extends h he, rfl⟩

/-- Two entries with one number are the same. -/
theorem Regular.eq_of_snd_eq {t : FrameTable} (ht : t.Regular)
    {e e' : (FrameId × NodeId) × FrameId} (he : e ∈ t.extensions) (he' : e' ∈ t.extensions)
    (h : e.2 = e'.2) : e = e' := by
  have nodup : (t.extensions.map Prod.snd).Nodup := by
    rw [ht]
    refine List.Nodup.map ?_ List.nodup_range
    intro i j hij
    simpa using hij
  exact List.inj_on_of_nodup_map nodup he he' h

/-- The empty sequence shares its number with no other. -/
theorem Regular.ne_root {t : FrameTable} (ht : t.Regular) {e : (FrameId × NodeId) × FrameId}
    (he : e ∈ t.extensions) : e.2 ≠ .root := by
  have mem : e.2 ∈ t.extensions.map Prod.snd := List.mem_map_of_mem he
  rw [ht] at mem
  obtain ⟨i, -, hi⟩ := List.mem_map.1 mem
  rw [← hi]
  simp [FrameId.root]

/-- A number belongs to one sequence. -/
theorem Regular.number?_inj {t : FrameTable} (ht : t.Regular) {a b : List NodeId} {id : FrameId}
    (ha : t.number? a = some id) (hb : t.number? b = some id) : a = b := by
  induction a generalizing b id with
  | nil =>
    cases b with
    | nil => rfl
    | cons n rest =>
      simp only [number?, Option.bind_eq_some_iff, Option.map_eq_some_iff, Option.some.injEq]
        at ha hb
      obtain ⟨_, -, e, he, hid⟩ := hb
      exact absurd (hid.trans ha.symm) (ht.ne_root (List.mem_of_find?_eq_some he))
  | cons n rest ih =>
    simp only [number?, Option.bind_eq_some_iff, Option.map_eq_some_iff] at ha
    obtain ⟨parent, hp, e, he, rfl⟩ := ha
    cases b with
    | nil =>
      simp only [number?, Option.some.injEq] at hb
      exact absurd hb.symm (ht.ne_root (List.mem_of_find?_eq_some he))
    | cons m rest' =>
      simp only [number?, Option.bind_eq_some_iff, Option.map_eq_some_iff] at hb
      obtain ⟨parent', hp', e', he', hid⟩ := hb
      -- the entry with the number says what the last context node and the number of the rest are
      have same : e' = e :=
        ht.eq_of_snd_eq (List.mem_of_find?_eq_some he') (List.mem_of_find?_eq_some he) hid
      have key : (parent, n) = (parent', m) := by
        rw [← key_of_find? he, ← key_of_find? he', same]
      simp only [Prod.mk.injEq] at key
      obtain ⟨rfl, rfl⟩ := key
      rw [ih hp hp']

/-! ### Extending a sequence -/

variable {t : FrameTable} {parent : FrameId} {n : NodeId}

theorem extends_extend : t.Extends (t.extend parent n).2 := by
  unfold extend
  split
  · exact .refl t
  · exact List.prefix_append _ _

theorem Regular.extend (ht : t.Regular) : (t.extend parent n).2.Regular := by
  unfold FrameTable.extend
  split
  · exact ht
  · show (t.extensions ++ [_]).map Prod.snd = _
    rw [List.map_append, ht, List.length_append, List.length_singleton, List.range_succ,
      List.map_append]
    rfl

theorem find?_extend :
    ((t.extend parent n).2.extensions.find? fun e => e.1 = (parent, n)) =
      some ((parent, n), (t.extend parent n).1) := by
  unfold extend
  split
  · next e he =>
    rw [he, ← key_of_find? he]
  · next he => simp [List.find?_append, he]

/-- The sequence has its number once it was extended. -/
theorem number?_extend {around : List NodeId} (h : t.number? around = some parent) :
    (t.extend parent n).2.number? (n :: around) = some (t.extend parent n).1 := by
  rw [number?, number?_of_extends extends_extend h, Option.bind_some, find?_extend,
    Option.map_some]

end FrameTable

namespace Plan

/-- The values that a context node lends. -/
def lent (p : Plan) (id : NodeId) : List (String × NodeId) :=
  match p.graph.get? id with
  | some (.context _ values) => values
  | _ => []

/-- The innermost value of a key under some context nodes, and the nodes around the one that
lends it. -/
def lookup? (p : Plan) (key : String) : List NodeId → Option (NodeId × List NodeId)
  | [] => none
  | n :: outer =>
    match (p.lent n).reverse.lookup key with
    | some value => some (value, outer)
    | none => lookup? p key outer

theorem get?_of_follow {expansions : OrderedMap NodeId NodeId} {fuel : Nat} {id m : NodeId}
    (h : follow expansions fuel id = some m) : expansions.get? m = none := by
  induction fuel generalizing id with
  | zero =>
    cases he : expansions.get? id with
    | none =>
      unfold follow at h
      rw [he] at h
      cases h
      exact he
    | some next =>
      unfold follow at h
      rw [he] at h
      cases h
  | succ fuel ih =>
    cases he : expansions.get? id with
    | none =>
      unfold follow at h
      rw [he] at h
      cases h
      exact he
    | some next =>
      unfold follow at h
      rw [he] at h
      exact ih h

/-- The node that is built in the place of another is built in its own place. -/
theorem resolve_of_resolve {p : Plan} {id m : NodeId} (h : p.resolve id = .ok m) :
    p.resolve m = .ok m := by
  refine resolve_of_get?_eq_none ?_
  unfold resolve at h
  split at h
  · next hf =>
    cases h
    exact get?_of_follow hf
  · cases h

theorem graph_of_node {p : Plan} {id : NodeId} {n : Node} (h : p.node id = .ok n) :
    p.graph.get? id = some n := by
  unfold node at h
  split at h
  · next hg =>
    cases h
    exact hg
  · cases h

/-- A node of a plan is one of its graph. -/
theorem mem_of_node {p : Plan} {id : NodeId} {n : Node} (h : p.node id = .ok n) :
    n ∈ p.graph.entries.toList.map Entry.node := by
  obtain ⟨entry, hentry, rfl⟩ := Option.map_eq_some_iff.1 (graph_of_node h)
  exact List.mem_map_of_mem (Array.mem_toList_iff.2 (Array.mem_of_getElem? hentry))

theorem lent_of_node {p : Plan} {id inner : NodeId} {values : List (String × NodeId)}
    (h : p.node id = .ok (.context inner values)) : p.lent id = values := by
  rw [lent, graph_of_node h]

end Plan

/-- The frames are those of the context nodes. -/
def Framed (p : Plan) (t : FrameTable) : List Frame → List NodeId → Prop
  | [], [] => True
  | f :: fs, n :: ns => t.number? (n :: ns) = some f.id ∧ f.values = p.lent n ∧ Framed p t fs ns
  | _, _ => False

namespace Framed

variable {p : Plan} {t t' : FrameTable} {fs : List Frame} {around : List NodeId}

theorem mono (h : t.Extends t') (hf : Framed p t fs around) : Framed p t' fs around := by
  induction fs generalizing around with
  | nil => cases around <;> exact hf
  | cons f rest ih =>
    cases around with
    | nil => exact hf
    | cons n ns => exact ⟨FrameTable.number?_of_extends h hf.1, hf.2.1, ih hf.2.2⟩

theorem number? (hf : Framed p t fs around) : t.number? around = some (Frame.current fs) := by
  cases fs with
  | nil =>
    cases around with
    | nil => rfl
    | cons n ns => exact hf.elim
  | cons f rest =>
    cases around with
    | nil => exact hf.elim
    | cons n ns => exact hf.1

/-- A value is found in the frames exactly when it is found among the nodes. -/
theorem lookup? (hf : Framed p t fs around) (key : String) :
    (Frame.lookup? key fs = none ∧ p.lookup? key around = none) ∨
      ∃ value outer outer', Frame.lookup? key fs = some (value, outer) ∧
        p.lookup? key around = some (value, outer') ∧ Framed p t outer outer' := by
  induction fs generalizing around with
  | nil =>
    cases around with
    | nil => exact .inl ⟨rfl, rfl⟩
    | cons n ns => exact hf.elim
  | cons f rest ih =>
    cases around with
    | nil => exact hf.elim
    | cons n ns =>
      obtain ⟨-, hv, hr⟩ := hf
      rw [Frame.lookup?, Plan.lookup?, hv]
      cases (p.lent n).reverse.lookup key with
      | some value => exact .inr ⟨value, rest, ns, rfl, rfl, hr⟩
      | none => exact ih hr

/-- The frames inside a context node. -/
theorem extend (hf : Framed p t fs around) {id inner : NodeId}
    {values : List (String × NodeId)} (hn : p.node id = .ok (.context inner values)) :
    Framed p (t.extend (Frame.current fs) id).2
      (⟨(t.extend (Frame.current fs) id).1, values⟩ :: fs) (id :: around) :=
  ⟨FrameTable.number?_extend hf.number?, (Plan.lent_of_node hn).symm,
    hf.mono FrameTable.extends_extend⟩

end Framed

/-! ## Cache scopes -/

namespace NodeCache

variable {c c' c'' : NodeCache} {s : ScopeId} {node : NodeId} {stage : Option Stage}
  {k : CacheKey}

/-- A reference to the node of the key was counted. -/
def Counted (c : NodeCache) (k : CacheKey) : Prop :=
  ∃ r, c.records.get? k = some r ∧ 0 < r.usage

theorem counted_key : c.Counted (c.key s node stage) ↔ 1 ≤ c.usage s node stage := by
  unfold Counted usage get?
  cases c.records.get? (c.key s node stage) with
  | none => simp
  | some r => simp [Nat.lt_iff_add_one_le]

theorem counted_of_records (h : c'.records = c.records) : c'.Counted k ↔ c.Counted k := by
  unfold Counted
  rw [h]

/-- A change of one record changes what is counted there only. -/
theorem counted_update {f : CacheRecord → CacheRecord} (hk : k ≠ c.key s node stage) :
    (c.update s node stage f).Counted k ↔ c.Counted k := by
  have same : (c.update s node stage f).records.get? k = c.records.get? k := by
    show (c.records.put _ _).get? k = _
    rw [OrderedMap.get?_put, if_neg hk]
  unfold Counted
  rw [same]

theorem counted_count :
    (c.count s node stage).Counted k ↔ k = c.key s node stage ∨ c.Counted k := by
  by_cases hk : k = c.key s node stage
  · subst hk
    have same : (c.count s node stage).key s node stage = c.key s node stage := rfl
    have pos : 1 ≤ (c.count s node stage).usage s node stage := by
      rw [usage_count]
      omega
    rw [← counted_key, same] at pos
    exact iff_of_true pos (.inl rfl)
  · unfold count
    rw [counted_update hk, or_iff_right hk]

theorem counted_bind {b : BoundName} : (c.bind s node stage b).Counted k ↔ c.Counted k := by
  by_cases hk : k = c.key s node stage
  · subst hk
    have same : (c.bind s node stage b).key s node stage = c.key s node stage := rfl
    rw [← same, counted_key, same, counted_key]
    unfold bind usage
    rw [get?_update]
    cases c.get? s node stage <;> rfl
  · exact counted_update hk

theorem not_counted_empty : ¬empty.Counted k := by
  rintro ⟨r, hr, -⟩
  cases hr

/-- The name that the node of a key is bound to. -/
def bound? (c : NodeCache) (k : CacheKey) : Option BoundName :=
  (c.records.get? k).bind CacheRecord.bound

theorem bound?_of_records (h : c'.records = c.records) : c'.bound? k = c.bound? k := by
  unfold bound?
  rw [h]

theorem bound?_update {f : CacheRecord → CacheRecord} : (c.update s node stage f).bound? k =
    if k = c.key s node stage then (f ((c.get? s node stage).getD ⟨0, none⟩)).bound
    else c.bound? k := by
  unfold bound?
  show ((c.records.put _ _).get? k).bind _ = _
  rw [OrderedMap.get?_put]
  split <;> rfl

theorem bound?_count : (c.count s node stage).bound? k = c.bound? k := by
  unfold count
  rw [bound?_update]
  split
  · next h =>
    unfold bound? get?
    rw [h]
    cases c.records.get? (c.key s node stage) <;> rfl
  · rfl

theorem bound?_bind {b : BoundName} : (c.bind s node stage b).bound? k =
    if k = c.key s node stage then some b else c.bound? k := bound?_update

/-! ### Growth -/

/-- Nothing is known less than before about the scopes. -/
structure Grows (c c' : NodeCache) : Prop where
  parents : c.parents <+: c'.parents
  derived : ∀ at' s, c.derived.get? at' = some s → c'.derived.get? at' = some s

theorem Grows.refl (c : NodeCache) : c.Grows c := ⟨List.prefix_rfl, fun _ _ h => h⟩

theorem Grows.trans (h : c.Grows c') (h' : c'.Grows c'') : c.Grows c'' :=
  ⟨h.parents.trans h'.parents, fun a s hs => h'.derived a s (h.derived a s hs)⟩

/-- The scope is one of the cache. -/
def Has (c : NodeCache) (s : ScopeId) : Prop := s.index < c.parents.length

theorem Has.mono (h : c.Has s) (hg : c.Grows c') : c'.Has s :=
  Nat.lt_of_lt_of_le h hg.parents.length_le

theorem Has.getElem? (h : c.Has s) (hg : c.Grows c') :
    c'.parents[s.index]? = c.parents[s.index]? := by
  obtain ⟨rest, hr⟩ := hg.parents
  rw [← hr, List.getElem?_append_left h]

/-- How the scopes of a cache belong together. -/
structure Regular (p : Plan) (c : NodeCache) : Prop where
  root : c.Has .root
  older : ∀ (i : Nat) (parent : ScopeId), c.parents[i]? = some (some parent) → parent.index < i
  derived : ∀ s node d, c.derived.get? (s, node) = some d →
    ∃ inner shares, p.node node = .ok (.cache inner shares) ∧
      c.parents[d.index]? = some (if shares then some s else none)

theorem regular_empty (p : Plan) : Regular p .empty where
  root := Nat.one_pos
  older i parent h := by
    cases i with
    | zero => cases h
    | succ i => cases h
  derived _ _ _ h := nomatch h

/-- A parent is older than the scopes that share with it. -/
def Ordered (c : NodeCache) : Prop :=
  ∀ (i : Nat) (parent : ScopeId), c.parents[i]? = some (some parent) → parent.index < i

/-- Enough parents are followed. -/
theorem ownerIn_of_grows (ho : c.Ordered) (hg : c.Grows c') {fuel fuel' : Nat} (hs : c.Has s)
    (hf : s.index < fuel) (hf' : s.index < fuel') :
    ownerIn c'.parents fuel' s = ownerIn c.parents fuel s := by
  -- parents get older, so the index of the scope bounds the way to its owner
  induction fuel generalizing s fuel' with
  | zero => cases hf
  | succ fuel ih =>
    obtain ⟨fuel', rfl⟩ := Nat.exists_eq_succ_of_ne_zero (Nat.ne_zero_of_lt hf')
    rw [ownerIn, ownerIn, hs.getElem? hg]
    split
    · next parent hp =>
      have := ho _ _ hp
      exact ih (Nat.lt_trans this hs) (by omega) (by omega)
    · rfl

/-- A scope keeps its owner. -/
theorem Ordered.owner_of_grows (h : c.Ordered) (hg : c.Grows c') (hs : c.Has s) :
    c'.owner s = c.owner s :=
  ownerIn_of_grows h hg hs hs (hs.mono hg)

/-- A scope that shares has the owner of the one it shares with. -/
theorem Ordered.owner_of_parent (h : c.Ordered) {d : ScopeId}
    (hd : c.parents[d.index]? = some (some s)) : c.owner d = c.owner s := by
  have has : c.Has d := (List.getElem?_eq_some_iff.1 hd).1
  have older := h _ _ hd
  obtain ⟨n, hn⟩ := Nat.exists_eq_succ_of_ne_zero (Nat.ne_zero_of_lt has)
  have step : c.owner d = ownerIn c.parents n s := by
    unfold owner
    rw [hn, ownerIn, hd]
  rw [step]
  unfold Has at has
  exact ownerIn_of_grows h (.refl c) (Nat.lt_trans older has) (Nat.lt_trans older has) (by omega)

variable {p : Plan}

theorem Regular.owner_of_grows (h : c.Regular p) (hg : c.Grows c') (hs : c.Has s) :
    c'.owner s = c.owner s :=
  Ordered.owner_of_grows h.older hg hs

/-- A scope of its own is its own owner. -/
theorem owner_of_isolated {d : ScopeId} (hd : c.parents[d.index]? = some none) : c.owner d = d := by
  have has := (List.getElem?_eq_some_iff.1 hd).1
  obtain ⟨n, hn⟩ := Nat.exists_eq_succ_of_ne_zero (Nat.ne_zero_of_lt has)
  unfold owner
  rw [hn, ownerIn, hd]

/-! ### The scope of a cache node -/

variable {inner : NodeId} {shares : Bool}

theorem grows_scopeFor : c.Grows (c.scopeFor s node shares).2 := by
  unfold scopeFor
  split
  · exact .refl c
  · next h =>
    refine ⟨List.prefix_append _ _, fun a d hd => ?_⟩
    show (c.derived.put _ _).get? a = _
    rw [OrderedMap.get?_put, if_neg]
    · exact hd
    · rintro rfl
      cases h.symm.trans hd

theorem records_scopeFor : (c.scopeFor s node shares).2.records = c.records := by
  unfold scopeFor
  split <;> rfl

/-- The scope is found again. -/
theorem derived_scopeFor :
    (c.scopeFor s node shares).2.derived.get? (s, node) = some (c.scopeFor s node shares).1 := by
  unfold scopeFor
  split
  · next h => exact h
  · show (c.derived.put _ _).get? _ = _
    rw [OrderedMap.get?_put, if_pos rfl]

theorem Ordered.scopeFor (h : c.Ordered) (hs : c.Has s) :
    (c.scopeFor s node shares).2.Ordered := by
  unfold NodeCache.scopeFor
  split
  · exact h
  intro i parent hi
  have found : (c.parents ++ [if shares then some s else none])[i]? = some (some parent) := hi
  rw [List.getElem?_append] at found
  split at found
  · exact h i parent found
  · rw [List.getElem?_singleton] at found
    unfold Has at hs
    split at found
    · cases shares
      · cases found
      · cases found
        omega
    · cases found

/-- What is told of a scope that the cache has found: it was there, or it is the new one. -/
theorem derived_of_scopeFor {s' d : ScopeId} {node' : NodeId}
    (h : (c.scopeFor s node shares).2.derived.get? (s', node') = some d) :
    c.derived.get? (s', node') = some d ∨ s' = s ∧ node' = node ∧ d = ⟨c.parents.length⟩ ∧
      (c.scopeFor s node shares).2.parents[d.index]? =
        some (if shares then some s else none) := by
  unfold NodeCache.scopeFor at h ⊢
  split at h
  · exact .inl h
  · have found : (c.derived.put (s, node) ⟨c.parents.length⟩).get? (s', node') = some d := h
    rw [OrderedMap.get?_put] at found
    split at found
    · next he =>
      cases he
      cases found
      exact .inr ⟨rfl, rfl, rfl, List.getElem?_concat_length⟩
    · exact .inl found

theorem Regular.scopeFor (h : c.Regular p) (hs : c.Has s)
    (hn : p.node node = .ok (.cache inner shares)) :
    (c.scopeFor s node shares).2.Regular p := by
  refine ⟨h.root.mono grows_scopeFor, Ordered.scopeFor h.older hs, fun s' node' d hd' => ?_⟩
  rcases derived_of_scopeFor hd' with old | ⟨rfl, rfl, -, parent⟩
  · obtain ⟨inner', shares', hn', hp⟩ := h.derived _ _ _ old
    refine ⟨inner', shares', hn', ?_⟩
    have has : c.Has d := (List.getElem?_eq_some_iff.1 hp).1
    rw [← hp]
    exact has.getElem? grows_scopeFor
  · exact ⟨inner, shares, hn, parent⟩

/-- The scope of a cache node that shares has the owner of the scope around it; the scope of any
other is its own owner. -/
theorem Regular.owner_derived (h : c.Regular p) {d : ScopeId}
    (hd : c.derived.get? (s, node) = some d) (hn : p.node node = .ok (.cache inner shares)) :
    c.Has d ∧ c.owner d = if shares then c.owner s else d := by
  obtain ⟨inner', shares', hn', hp⟩ := h.derived s node d hd
  cases hn.symm.trans hn'
  refine ⟨(List.getElem?_eq_some_iff.1 hp).1, ?_⟩
  cases shares
  · exact owner_of_isolated hp
  · exact Ordered.owner_of_parent h.older hp

end NodeCache

end ShaderGraph
