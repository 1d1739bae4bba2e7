import Mathlib.Logic.Relation
import ShaderGraph.Proofs.Scopes

/-!
# Histories of caches

A history is a cache with what was done to it since it was empty: scopes that were asked for, and
records that were changed (`NodeCache.History`). Whether a scope shares is a matter of its cache node.

A step keeps the cache `Partitioned`: a parent is older than its scope, and a scope belongs to one
cache node inside one scope. So the way to an owner ends, a scope has the owner of the one it shares
with and is its own owner otherwise, and a record is what was made of it, in the order of the history,
through scopes of its owner and no others (`NodeCache.History.partition`).
-/

namespace ShaderGraph

/-- What was done to a cache. -/
inductive CacheEvent
  /-- The scope of a cache node inside a scope was asked for, with the scope that was answered. -/
  | entered (enclosing : ScopeId) (node : NodeId) (scope : ScopeId)
  /-- The record of a node was changed through a scope. -/
  | wrote (scope : ScopeId) (node : NodeId) (stage : Option Stage)
      (change : CacheRecord → CacheRecord)

namespace NodeCache

/-- A cache with its history. -/
inductive History (shares : NodeId → Bool) : List CacheEvent → NodeCache → Prop
  | start : History shares [] .empty
  | enter {es : List CacheEvent} {c : NodeCache} (s : ScopeId) (n : NodeId)
      (before : History shares es c) (has : c.Has s) :
      History shares (es ++ [.entered s n (c.scopeFor s n (shares n)).1])
        (c.scopeFor s n (shares n)).2
  | write {es : List CacheEvent} {c : NodeCache} (s : ScopeId) (n : NodeId) (t : Option Stage)
      (f : CacheRecord → CacheRecord) (before : History shares es c) (has : c.Has s) :
      History shares (es ++ [.wrote s n t f]) (c.update s n t f)

/-- A scope keeps nothing of its own but shares with its parent. -/
def Shares (c : NodeCache) (s parent : ScopeId) : Prop := c.parents[s.index]? = some (some parent)

variable {c c' : NodeCache} {s s' d : ScopeId} {n : NodeId} {t : Option Stage} {k : CacheKey}
  {shares : NodeId → Bool} {es : List CacheEvent}

instance : Decidable (c.Has s) := inferInstanceAs (Decidable (s.index < c.parents.length))

/-! ### The way to an owner -/

/-- Following parents ends. -/
theorem Ordered.wellFounded (h : c.Ordered) : WellFounded fun parent s => c.Shares s parent :=
  Subrelation.wf (fun {_ _} link => h _ _ link) (measure ScopeId.index).wf

theorem owner_of_not_shares (h : ¬∃ parent, c.Shares s parent) : c.owner s = s := by
  unfold owner
  cases c.parents.length with
  | zero => rfl
  | succ fuel =>
    rw [ownerIn]
    split
    · next parent hp => exact absurd ⟨parent, hp⟩ h
    · rfl

/-- The owner is where following parents ends. -/
theorem Ordered.reaches_owner (h : c.Ordered) (s : ScopeId) :
    Relation.ReflTransGen c.Shares s (c.owner s) ∧ ¬∃ parent, c.Shares (c.owner s) parent := by
  induction s using h.wellFounded.induction with
  | _ s ih =>
    by_cases link : ∃ parent, c.Shares s parent
    · obtain ⟨parent, link⟩ := link
      rw [h.owner_of_parent link]
      exact ⟨.head link (ih parent link).1, (ih parent link).2⟩
    · rw [owner_of_not_shares link]
      exact ⟨.refl, link⟩

/-! ### What the steps keep -/

/-- A scope belongs to one cache node inside one scope, which says with whom it shares. -/
structure Partitioned (shares : NodeId → Bool) (c : NodeCache) : Prop where
  root : c.Has .root
  older : c.Ordered
  parent : ∀ s n d, c.derived.get? (s, n) = some d →
    c.parents[d.index]? = some (if shares n then some s else none)
  unique : ∀ at' at'' d, c.derived.get? at' = some d → c.derived.get? at'' = some d → at' = at''

theorem partitioned_empty : Partitioned shares .empty where
  root := Nat.one_pos
  older i parent h := by
    cases i with
    | zero => cases h
    | succ i => cases h
  parent _ _ _ h := nomatch h
  unique _ _ _ h := nomatch h

theorem Partitioned.has (h : c.Partitioned shares) (hd : c.derived.get? (s, n) = some d) : c.Has d :=
  (List.getElem?_eq_some_iff.1 (h.parent _ _ _ hd)).1

theorem Partitioned.scopeFor (h : c.Partitioned shares) (hs : c.Has s) :
    (c.scopeFor s n (shares n)).2.Partitioned shares := by
  -- the new scope is not one of the old ones, so no cache node is given it again
  have fresh : ∀ at' d, c.derived.get? at' = some d → d ≠ ⟨c.parents.length⟩ := by
    rintro at' d old rfl
    exact absurd (h.has old) (Nat.lt_irrefl _)
  refine ⟨h.root.mono grows_scopeFor, Ordered.scopeFor h.older hs, fun s' n' d hd => ?_,
    fun at' at'' d hd hd' => ?_⟩
  · rcases derived_of_scopeFor hd with old | ⟨rfl, rfl, -, parent⟩
    · exact ((h.has old).getElem? grows_scopeFor).trans (h.parent _ _ _ old)
    · exact parent
  · rcases derived_of_scopeFor hd with old | ⟨hs, hn, new, -⟩ <;>
      rcases derived_of_scopeFor hd' with old' | ⟨hs', hn', new', -⟩
    · exact h.unique _ _ _ old old'
    · exact absurd new' (fresh _ _ old)
    · exact absurd new (fresh _ _ old')
    · exact Prod.ext (hs.trans hs'.symm) (hn.trans hn'.symm)

theorem Partitioned.update {f : CacheRecord → CacheRecord} (h : c.Partitioned shares) :
    (c.update s n t f).Partitioned shares :=
  ⟨h.root, h.older, h.parent, h.unique⟩

/-- A changed record is found through the scopes of the same owner, and the others are as they
were. -/
theorem get?_update_eq {f : CacheRecord → CacheRecord} {n' : NodeId} {t' : Option Stage} :
    (c.update s n t f).get? s' n' t' =
      if c.owner s = c.owner s' ∧ n = n' ∧ t = t' then some (f ((c.get? s n t).getD ⟨0, none⟩))
      else c.get? s' n' t' := by
  have same : c.key s' n' t' = c.key s n t ↔ c.owner s = c.owner s' ∧ n = n' ∧ t = t' := by
    unfold key
    rw [CacheKey.mk.injEq, eq_comm (a := c.owner s'), eq_comm (a := n'), eq_comm (a := t')]
  show (c.records.put (c.key s n t) _).get? (c.key s' n' t') = _
  rw [OrderedMap.get?_put]
  exact if_congr same rfl rfl

/-! ### Histories -/

/-- What an event makes of the record that an owner keeps of a node. -/
def made (c : NodeCache) (owner : ScopeId) (n : NodeId) (t : Option Stage)
    (r : Option CacheRecord) : CacheEvent → Option CacheRecord
  | .entered _ _ _ => r
  | .wrote s n' t' f =>
    if c.owner s = owner ∧ n' = n ∧ t' = t then some (f (r.getD ⟨0, none⟩)) else r

namespace History

theorem partitioned (h : History shares es c) : c.Partitioned shares := by
  induction h with
  | start => exact partitioned_empty
  | enter s n _ has ih => exact ih.scopeFor has
  | write s n t f _ _ ih => exact ih.update

/-- What was answered is found again. -/
theorem derived (h : History shares es c) (hd : .entered s n d ∈ es) :
    c.derived.get? (s, n) = some d := by
  induction h with
  | start => cases hd
  | enter s' n' _ _ ih =>
    rcases List.mem_append.1 hd with old | new
    · exact grows_scopeFor.derived _ _ (ih old)
    · cases List.mem_singleton.1 new
      exact derived_scopeFor
  | write s' n' t f _ _ ih =>
    rcases List.mem_append.1 hd with old | new
    · exact ih old
    · cases List.mem_singleton.1 new

/-- Records are changed through scopes of the cache. -/
theorem has_of_wrote {f : CacheRecord → CacheRecord} (h : History shares es c)
    (hw : .wrote s n t f ∈ es) : c.Has s := by
  induction h with
  | start => cases hw
  | enter s' n' _ _ ih =>
    rcases List.mem_append.1 hw with old | new
    · exact (ih old).mono grows_scopeFor
    · cases List.mem_singleton.1 new
  | write s' n' t' f' _ has ih =>
    rcases List.mem_append.1 hw with old | new
    · exact ih old
    · cases List.mem_singleton.1 new
      exact has

/-- A record is what the history made of it. -/
theorem records (h : History shares es c) (owner : ScopeId) (n : NodeId) (t : Option Stage) :
    c.records.get? ⟨owner, n, t⟩ = es.foldl (c.made owner n t) none := by
  induction h with
  | start => rfl
  | @enter es c s n' before has ih =>
    have grows : c.Grows (c.scopeFor s n' (shares n')).2 := grows_scopeFor
    -- the scopes through which records were changed keep their owners
    have same : ∀ r, ∀ e ∈ es, c.made owner n t r e =
        (c.scopeFor s n' (shares n')).2.made owner n t r e := by
      intro r e he
      cases e with
      | entered => rfl
      | wrote s' n'' t' f =>
        show ite _ _ _ = ite _ _ _
        rw [Ordered.owner_of_grows before.partitioned.older grows (before.has_of_wrote he)]
    rw [records_scopeFor, ih, List.foldl_append]
    exact List.foldl_ext _ _ _ same
  | @write es c s n' t' f before has ih =>
    show (c.records.put (c.key s n' t') _).get? ⟨owner, n, t⟩ = _
    rw [OrderedMap.get?_put, List.foldl_append, ih]
    show _ = ite (c.owner s = owner ∧ n' = n ∧ t' = t) _ _
    by_cases kept : c.owner s = owner ∧ n' = n ∧ t' = t
    · obtain ⟨rfl, rfl, rfl⟩ := kept
      rw [if_pos (show (⟨_, _, _⟩ : CacheKey) = c.key s n' t' from rfl), if_pos ⟨rfl, rfl, rfl⟩]
      exact congrArg (fun r => some (f (Option.getD r ⟨0, none⟩))) ih
    · rw [if_neg kept, if_neg]
      · rfl
      intro same
      cases same
      exact kept ⟨rfl, rfl, rfl⟩

/-- A scope that was asked for shares with the one around it, or is on its own. -/
theorem owner_entered (h : History shares es c) (hd : .entered s n d ∈ es) :
    c.owner d = if shares n then c.owner s else d := by
  have parent := h.partitioned.parent _ _ _ (h.derived hd)
  cases hn : shares n with
  | true =>
    rw [hn, if_pos rfl] at parent
    exact Ordered.owner_of_parent h.partitioned.older parent
  | false =>
    rw [hn, if_neg Bool.false_ne_true] at parent
    exact owner_of_isolated parent

/-- What the scopes of a cache keep apart, after any history. Following parents ends, at the owner. A
scope that was asked for is one of the cache; it has the owner of the scope around it if its cache
node shares, at any number of steps, and otherwise it is its own owner. The same scope was answered
exactly for the same cache node inside the same scope. A change through a scope is seen through the
scopes of the same owner, for the same node and stage, and changes nothing else; so a record is what
all these changes made of it, in their order. -/
theorem partition (h : History shares es c) :
    (WellFounded fun parent s => c.Shares s parent) ∧
      (∀ s, Relation.ReflTransGen c.Shares s (c.owner s) ∧
        ¬∃ parent, c.Shares (c.owner s) parent) ∧
      (∀ s n d, .entered s n d ∈ es →
        c.Has d ∧ c.owner d = if shares n then c.owner s else d) ∧
      (∀ s d, Relation.ReflTransGen (fun s d => ∃ n, .entered s n d ∈ es ∧ shares n = true) s d →
        c.owner d = c.owner s) ∧
      (∀ s n d s' n' d', .entered s n d ∈ es → .entered s' n' d' ∈ es →
        (d = d' ↔ s = s' ∧ n = n')) ∧
      (∀ s n t f s' n' t', (c.update s n t f).get? s' n' t' =
        if c.owner s = c.owner s' ∧ n = n' ∧ t = t'
          then some (f ((c.get? s n t).getD ⟨0, none⟩))
          else c.get? s' n' t') ∧
      ∀ s n t, c.get? s n t = es.foldl (c.made (c.owner s) n t) none := by
  have regular := h.partitioned
  refine ⟨regular.older.wellFounded, regular.older.reaches_owner,
    fun s n d hd => ⟨regular.has (h.derived hd), h.owner_entered hd⟩, fun s d chain => ?_,
    fun s n d s' n' d' hd hd' => ⟨?_, ?_⟩, fun s n t f s' n' t' => get?_update_eq,
    fun s n t => h.records _ _ _⟩
  · induction chain with
    | refl => rfl
    | tail _ link ih =>
      obtain ⟨n, hd, hn⟩ := link
      rw [h.owner_entered hd, if_pos hn, ih]
  · rintro rfl
    exact Prod.mk.inj (regular.unique _ _ _ (h.derived hd) (h.derived hd'))
  · rintro ⟨rfl, rfl⟩
    exact Option.some.inj ((h.derived hd).symm.trans (h.derived hd'))

/-- One reference counted. -/
def counted (r : CacheRecord) : CacheRecord := { r with usage := r.usage + 1 }

/-- Inside an isolated scope, a scope that shares counts with the isolated one, and the root sees
nothing of it. -/
theorem linked_partition :
    ∃ c, History (· = ⟨21⟩) [.entered .root ⟨20⟩ ⟨1⟩, .entered ⟨1⟩ ⟨21⟩ ⟨2⟩,
        .wrote ⟨2⟩ ⟨7⟩ (some .fragment) counted, .wrote ⟨1⟩ ⟨7⟩ (some .fragment) counted] c ∧
      c.owner ⟨2⟩ = ⟨1⟩ ∧ c.get? ⟨2⟩ ⟨7⟩ (some .fragment) = some ⟨2, none⟩ ∧
      c.get? .root ⟨7⟩ (some .fragment) = none := by
  have root : History (· = ⟨21⟩) [] .empty := .start
  have isolated := root.enter .root ⟨20⟩ (by decide)
  have linked := isolated.enter ⟨1⟩ ⟨21⟩ (by decide)
  have history := (linked.write ⟨2⟩ ⟨7⟩ (some .fragment) counted (by decide)).write ⟨1⟩ ⟨7⟩
    (some .fragment) counted (by decide)
  obtain ⟨-, -, scopes, -, -, -, record⟩ := partition history
  refine ⟨_, history, (scopes ⟨1⟩ ⟨21⟩ ⟨2⟩ ?_).2, record _ _ _, record _ _ _⟩
  exact .tail _ (.head _)

end History

end NodeCache

end ShaderGraph
