import Mathlib.Algebra.BigOperators.Group.Finset.Basic
import ShaderGraph.Proofs.Askers
import ShaderGraph.Proofs.Entered
import ShaderGraph.Proofs.UniformBlocks

/-!
# Values that are shared

In a plain plan a value that is referred to more than once is bound to a name. Of the answers for its
node one is computed, and all are the name (`Audit.exists_boundOnce`). The body of the program declares
the name once, and nothing that stands before the declaration refers to it
(`Program.InScope.declaresFirst`). `shared_once_of_build` puts this together for a build: analysis counts
as often as a node is referred to, whatever is below the roots belongs to a stage that is built
(`active_of_below`), and there each shared value has its declaration.
-/

namespace ShaderGraph

open Statement Build

/-! ### Declarations come first -/

namespace Statement

variable {known : Reference → Prop} {scope : List String} {ss ss' : List Statement} {st : Statement}

/-- A statement without blocks refers to what its expressions refer to. -/
theorem referencesIn_cons (h : st.blocks = []) :
    referencesIn (st :: ss) = st.exprs.flatMap Expr.references ++ referencesIn ss := by
  rw [referencesIn, collectIn, collect_eq, h, collectIn, List.append_nil]
  rfl

/-- What statements in scope may refer to: what is known, what is in scope, and what they declare. -/
def Within (known : Reference → Prop) (scope : List String) (rs : List Reference) : Prop :=
  ∀ r ∈ rs, known r ∨ ∃ n ∈ scope, r = .local n

theorem Within.cons {rest : List Statement} {m : List String} (hb : st.blocks = [])
    (own : ∀ e ∈ st.exprs, e.Refers known scope)
    (after : Within known (m ++ scope) (referencesIn rest)) :
    Within known (m ++ scope) (referencesIn (st :: rest)) := by
  rw [referencesIn_cons hb]
  intro r hr
  rcases List.mem_append.1 hr with hr | hr
  · obtain ⟨e, he, hr⟩ := List.mem_flatMap.1 hr
    exact (own e he r hr).imp_right fun ⟨n, hn, same⟩ => ⟨n, List.mem_append_right _ hn, same⟩
  · exact after r hr

namespace Scoped

/-- Statements without blocks refer to what is known, to what is in scope and to what they declare. -/
theorem within (h : Scoped known scope ss) (flat : ∀ st ∈ ss, st.blocks = []) :
    Within known (bound ss ++ scope) (referencesIn ss) := by
  induction h with
  | nil => exact fun _ hr => nomatch hr
  | @declare scope name type init m owner rest _ value _ ih =>
    have after := ih fun st hst => flat st (.tail _ hst)
    have names : ∀ n, n ∈ bound rest ++ name :: scope ↔ n ∈ (name :: bound rest) ++ scope := by
      intro n
      simp only [List.mem_append, List.mem_cons]
      tauto
    refine Within.cons (m := name :: bound rest) (flat _ (.head _)) ?_ ?_
    · exact fun e he => value e (Option.mem_toList.1 he)
    · exact fun r hr => (after r hr).imp_right fun ⟨n, hn, same⟩ => ⟨n, (names n).1 hn, same⟩
  | assign place value _ ih | update place value _ ih =>
    refine .cons (flat _ (.head _)) (fun e he => ?_) (ih fun st hst => flat st (.tail _ hst))
    rcases List.mem_pair.1 he with rfl | rfl
    · exact place
    · exact value
  | call args _ ih => exact .cons (flat _ (.head _)) args (ih fun st hst => flat st (.tail _ hst))
  | jump _ ih => exact .cons (flat _ (.head _)) nofun (ih fun st hst => flat st (.tail _ hst))
  | branch condition _ _ _ _ _ ih =>
    refine .cons (flat _ (.head _)) (fun e he => ?_) (ih fun st hst => flat st (.tail _ hst))
    exact List.mem_singleton.1 he ▸ condition
  | loop _ start stop _ _ _ ih =>
    refine .cons (flat _ (.head _)) (fun e he => ?_) (ih fun st hst => flat st (.tail _ hst))
    rcases List.mem_pair.1 he with rfl | rfl
    · exact start
    · exact stop

/-- Statements in scope are so up to each of them, and from each on. -/
theorem split (h : Scoped known scope (ss ++ ss')) :
    Scoped known scope ss ∧ ∃ scope', (∀ n, n ∈ scope' ↔ n ∈ bound ss ++ scope) ∧
      Scoped known scope' ss' := by
  induction ss generalizing scope with
  | nil => exact ⟨.nil, scope, fun _ => .rfl, h⟩
  | cons st rest ih =>
    cases h with
    | @declare _ name _ _ _ _ _ fresh value after =>
      obtain ⟨front, scope', same, back⟩ := ih after
      refine ⟨.declare fresh value front, scope', fun n => (same n).trans ?_, back⟩
      show _ ↔ n ∈ (name :: bound rest) ++ scope
      simp only [List.mem_append, List.mem_cons]
      tauto
    | assign place value after => exact (ih after).imp_left (.assign place value)
    | update place value after => exact (ih after).imp_left (.update place value)
    | call args after => exact (ih after).imp_left (.call args)
    | jump after => exact (ih after).imp_left .jump
    | branch c t e after => exact (ih after).imp_left (.branch c t e)
    | loop fresh start stop body after => exact (ih after).imp_left (.loop fresh start stop body)

end Scoped

end Statement

namespace Build

open Law BuildState

variable {p : Plan} {env : Env} {active : List Stage} {rs : List (Stage × NodeId)} {s : BuildState}
  {k : CacheKey} {id : NodeId}

end Build

/-! ### Answers for shared nodes -/

namespace Plan

/-- Analysis counted what is below the roots: each key as often as it is a root or is referred to. -/
structure Counts (p : Plan) (rs : List (Stage × NodeId)) (s : BuildState)
    (reached : List CacheKey) : Prop where
  nodup : reached.Nodup
  mem : ∀ k, k ∈ reached ↔ p.Beneath (p.rootKeys rs) k
  uses : ∀ k, s.cache.uses k = (p.rootKeys rs).count k + (reached.flatMap p.references).count k

end Plan

namespace NodeOf

variable {n : Node}

theorem mayBind_of_isTemp (h : n.isTemp = true) : n.mayBind = true := by
  cases n <;> first | rfl | cases h

theorem isPlace_of_mayBind (h : n.mayBind = true) : n.isPlace = false := by
  cases n <;> first | rfl | cases h

theorem isStructType_of_mayBind (h : n.mayBind = true) : n.isStructType = false := by
  cases n <;> first | rfl | cases h

end NodeOf

namespace BuildState

variable {p : Plan} {s : BuildState} {rs : List (Stage × NodeId)} {counted placed : List CacheKey}
  {k : CacheKey} {v w : Visit} {older : List Visit} {n : Node} {x : String}

/-- The answers for a key that were not recalled. -/
def fresh (s : BuildState) (k : CacheKey) : List Visit :=
  s.visits.filter fun v => v.key = k && !v.recalls

theorem mem_fresh : v ∈ s.fresh k ↔ v ∈ s.visits ∧ v.key = k ∧ v.recalls = false := by
  unfold fresh
  rw [List.mem_filter, Bool.and_eq_true, decide_eq_true_eq, Bool.not_eq_true']

namespace Audit

variable (h : s.Audit p rs counted placed)

include h

theorem counts : p.Counts rs s counted :=
  ⟨h.nodup, fun k => ⟨h.below k, h.counted_of_below⟩, h.tally⟩

/-- What is neither a place nor the layout of a struct is visited. -/
theorem exists_visit (hk : p.Beneath (p.rootKeys rs) k) (hn : p.node k.node = .ok n)
    (place : n.isPlace = false) (layout : n.isStructType = false) : ∃ v ∈ s.visits, v.key = k := by
  rcases h.touched hk with hk | ⟨n', hn', layout'⟩
  · rcases List.mem_append.1 hk with hk | hk
    · exact List.mem_map.1 hk
    · obtain ⟨n', hn', place'⟩ := h.places k hk
      cases hn.symm.trans hn'
      cases place.symm.trans place'
  · cases hn.symm.trans hn'
    cases layout.symm.trans layout'

end Audit

end BuildState

/-! ### Builds -/

variable {g : Graph} {request : BuildRequest} {options : BuildOptions} {host : Host} {a : Artifact}

/-- What is found for the members of a list, by how often each of them is in the list. -/
theorem count_flatMap_eq_sum {α β : Type} [DecidableEq α] [DecidableEq β] {l c : List α}
    (hc : c.Nodup) (hl : l ⊆ c) (f : α → List β) (b : β) :
    (l.flatMap f).count b = (c.map fun a => l.count a * (f a).count b).sum := by
  rw [List.count_flatMap, Finset.sum_list_map_count, ← List.sum_toFinset _ hc]
  refine Finset.sum_subset (fun a ha => ?_) fun a _ ha => ?_
  · exact List.mem_toFinset.2 (hl (List.mem_toFinset.1 ha))
  · rw [List.count_eq_zero.2 fun h => ha (List.mem_toFinset.2 h)]
    exact Nat.zero_mul _

/-- A key asks as often as it is visited when each of its visits asks. -/
theorem Visit.count_askers_eq {p : Plan} {k : CacheKey} {visits : List Visit}
    (h : ∀ v older, v :: older <:+ visits → v.key = k → v.asks p older = true) :
    (askers p visits).count k = (visits.map Visit.key).count k := by
  induction visits with
  | nil => rfl
  | cons v rest ih =>
    have rest' := ih fun w older hs => h w older (hs.trans (List.suffix_cons v rest))
    rw [askers, List.count_append, rest', List.map_cons, List.count_cons]
    by_cases hk : v.key = k
    · rw [if_pos (h v rest List.suffix_rfl hk), List.count_singleton, Nat.add_comm]
    · have other : (if v.asks p rest = true then [v.key] else []).count k = 0 := by
        split
        · simp [hk]
        · rfl
      simp [hk, other]

namespace BuildState

variable {p : Plan} {s : BuildState} {rs : List (Stage × NodeId)} {counted placed : List CacheKey}
  {k q : CacheKey} {v w : Visit} {older : List Visit} {n : Node}

/-- The code of the node of a key is passed on: the node is no varying, and it is never bound or only
referred to once. -/
def Passed (p : Plan) (s : BuildState) (k : CacheKey) : Prop :=
  ∃ n, p.node k.node = .ok n ∧ n.isVarying = false ∧
    (n.mayBind = false ∨ ¬p.AlwaysBinds k.node ∧ s.cache.uses k ≤ 1)

/-- How often the code of each node that analysis reached was generated. -/
structure Emits (p : Plan) (rs : List (Stage × NodeId)) (s : BuildState) (reached : List CacheKey)
    (emitted : CacheKey → Nat) : Prop extends p.Counts rs s reached where
  /-- For a value that may be bound each answer that is not recalled has code of its own. -/
  computed : ∀ k n, p.node k.node = .ok n → n.mayBind = true → emitted k = (s.fresh k).length
  kept : ∀ k ∈ reached, s.KeptOnce p k → emitted k = 1
  /-- A varying is written once, wherever it is met first. -/
  varying : ∀ k ∈ reached, ∀ n, p.node k.node = .ok n → n.isVarying = true →
    ∃ w, w.node = k.node ∧ emitted w = 1 ∧ ∀ k', k'.node = k.node → k' ≠ w → emitted k' = 0
  /-- What is passed on is generated again for each reference by code that is generated. -/
  passed : ∀ k ∈ reached, s.Passed p k → emitted k = (p.rootKeys rs).count k +
    (reached.map fun q => emitted q * (p.operandsAt q).count k).sum

/-- A value that may be bound asks for its operands with each answer that is not recalled. -/
theorem count_askers_of_mayBind (hn : p.node k.node = .ok n) (hb : n.mayBind = true) :
    (Visit.askers p s.visits).count k = (s.fresh k).length := by
  have bound : n.isVarying = false := by
    cases n <;> first | rfl | cases hb
  unfold fresh
  induction s.visits with
  | nil => rfl
  | cons v rest ih =>
    rw [Visit.askers, List.count_append, ih, List.filter_cons]
    by_cases hk : v.key = k
    · subst hk
      rw [Visit.asks_of_node hn, bound, hb]
      cases v.recalls <;> simp [Nat.add_comm]
    · have other : (if v.asks p rest = true then [v.key] else []).count k = 0 := by
        split
        · simp [hk]
        · rfl
      simp [hk, other]

namespace Audit

variable (h : s.Audit p rs counted placed)

include h

/-- Places are no values that may be bound, and no varyings. -/
theorem count_placed (hn : p.node k.node = .ok n) (place : n.isPlace = false) : placed.count k = 0 := by
  refine List.count_eq_zero.2 fun hk => ?_
  obtain ⟨n', hn', place'⟩ := h.places k hk
  cases hn.symm.trans hn'
  cases place.symm.trans place'

/-- Each visit of a node whose code is passed on asks for the operands of the node. -/
theorem asks_of_passed (passed : s.Passed p k) (hv : v :: older <:+ s.visits) (hk : v.key = k) :
    v.asks p older = true := by
  subst hk
  obtain ⟨n, hn, hvar, once⟩ := passed
  rw [Visit.asks_of_node hn, hvar]
  rcases once with hb | ⟨unbound, once⟩
  · rw [hb]
    rfl
  · cases hr : v.recalls with
    | false => simp
    | true =>
      have := ((h.orderly.told v older hv).cause hr).resolve_left unbound
      omega

/-- How often the code of each node was generated, for an answer or as a place. -/
theorem emits : s.Emits p rs counted fun k =>
    (Visit.askers p s.visits).count k + placed.count k := by
  -- what asks was counted
  have asked : Visit.askers p s.visits ⊆ counted := fun k hk => by
    refine h.counted_of_below (h.met k (List.mem_append_left _ ?_))
    exact (Visit.askers_sublist s.visits).subset hk
  have assigned : placed ⊆ counted := fun k hk =>
    h.counted_of_below (h.met k (List.mem_append_right _ hk))
  refine ⟨h.counts, fun k n hn hb => ?_, fun k hk kept => ?_, fun k hk n hn hvar => ?_,
    fun k hk passed => ?_⟩
  · rw [h.count_placed hn (NodeOf.isPlace_of_mayBind hb), count_askers_of_mayBind hn hb, Nat.add_zero]
  · obtain ⟨n, hn, hb⟩ := kept.mayBind
    have place := NodeOf.isPlace_of_mayBind hb
    obtain ⟨v, hv, rfl⟩ := h.exists_visit (h.below k hk) hn place (NodeOf.isStructType_of_mayBind hb)
    have one : 0 < (s.fresh v.key).length := by
      obtain ⟨older, suffix⟩ := exists_suffix_of_mem hv
      cases hr : v.recalls with
      | false => exact List.length_pos_of_mem (mem_fresh.2 ⟨hv, rfl, hr⟩)
      | true =>
        obtain ⟨w, hw, hk', fresh, -⟩ := (h.orderly.told v older suffix).recalled hr
        exact List.length_pos_of_mem (mem_fresh.2 ⟨suffix.subset (.tail _ hw), hk', fresh⟩)
    have most := h.count_askers_of_kept (h.below _ hk) kept
    have computed := count_askers_of_mayBind (s := s) hn hb
    have unplaced := h.count_placed hn place
    omega
  · have place : n.isPlace = false := by
      cases n <;> first | rfl | cases hvar
    have layout : n.isStructType = false := by
      cases n <;> first | rfl | cases hvar
    obtain ⟨v, hv, rfl⟩ := h.exists_visit (h.below k hk) hn place layout
    obtain ⟨w, older, suffix, first⟩ := Visit.exists_first hv
    have hn' : p.node w.key.node = .ok n := by rw [first.1, hn]
    have asks : w.asks p older = true := by
      rw [Visit.asks_of_node hn', if_pos hvar, first.1]
      exact decide_eq_true first
    refine ⟨w.key, first.1, ?_, fun k' same other => ?_⟩
    · have met := List.one_le_count_iff.2 (Visit.mem_askers.2 ⟨w, older, suffix, asks, rfl⟩)
      have most := h.count_askers_of_isVarying hn' hvar
      have unplaced := h.count_placed hn' place
      omega
    · have hn'' : p.node k'.node = .ok n := by rw [same, hn]
      rw [h.count_placed hn'' place, Nat.add_zero]
      refine List.count_eq_zero.2 fun hk' => other ?_
      obtain ⟨u, older', suffix', asks', rfl⟩ := Visit.mem_askers.1 hk'
      have alike : u.key.node = w.key.node := same.trans first.1.symm
      -- of two visits that ask for the source neither comes after the other
      rcases List.suffix_or_suffix_of_suffix suffix suffix' with before | before
      · rcases List.suffix_cons_iff.1 before with he | before
        · rw [(List.cons.inj he).1]
        · exact absurd alike.symm
            (h.askers_of_isVarying hn'' hvar suffix' rfl asks' w (before.subset (.head _)))
      · rcases List.suffix_cons_iff.1 before with he | before
        · rw [(List.cons.inj he).1]
        · exact absurd alike
            (h.askers_of_isVarying hn' hvar suffix rfl asks u (before.subset (.head _)))
  · obtain ⟨n, hn, -, -⟩ := id passed
    have flow := h.flow k
    rw [count_flatMap_eq_sum h.nodup asked, count_flatMap_eq_sum h.nodup assigned,
      ← Visit.count_askers_eq fun v older hv hk => h.asks_of_passed passed hv hk] at flow
    rw [flow, Nat.add_assoc, ← List.sum_map_add]
    simp only [Nat.add_mul]

end Audit

end BuildState

/-- A list of numbers whose sum is one has a single member that is not zero. -/
theorem exists_of_sum_map_eq_one {α : Type} {l : List α} {f : α → Nat} (h : (l.map f).sum = 1) :
    ∃ front a back, l = front ++ a :: back ∧ f a = 1 ∧ ∀ b ∈ front ++ back, f b = 0 := by
  have some : ∃ a ∈ l, f a ≠ 0 := by
    by_contra none
    push Not at none
    have zero : (l.map f).sum = 0 := List.sum_eq_zero (List.forall_mem_map.2 none)
    omega
  obtain ⟨a, ha, ne⟩ := some
  obtain ⟨front, back, rfl⟩ := List.append_of_mem ha
  rw [List.map_append, List.sum_append, List.map_cons, List.sum_cons] at h
  have rest : ((front ++ back).map f).sum = 0 := by
    rw [List.map_append, List.sum_append]
    omega
  exact ⟨front, a, back, rfl, by omega, List.forall_mem_map.1 (List.sum_eq_zero_iff.1 rest)⟩

namespace BuildState.Emits

variable {p : Plan} {s : BuildState} {rs : List (Stage × NodeId)} {reached : List CacheKey}
  {emitted : CacheKey → Nat} {k : CacheKey} {n : Node}

/-- The code of a value that is referred to once is generated once if it is the result of a call, a
variable or a root, and as often as the code that refers to it otherwise. -/
theorem single (h : s.Emits p rs reached emitted) (hn : p.node k.node = .ok n)
    (hb : n.mayBind = true) (once : s.cache.uses k = 1) :
    emitted k = 1 ∧ (p.AlwaysBinds k.node ∨ k ∈ p.rootKeys rs) ∨
      ∃ q ∈ reached, k ∈ p.operandsAt q ∧ emitted k = emitted q := by
  have tally : 1 = (p.rootKeys rs).count k +
      (reached.map fun q => (p.references q).count k).sum := by
    rw [← once, h.uses k, List.count_flatMap]
    rfl
  have hk : k ∈ reached := by
    by_contra unmet
    have unrooted : k ∉ p.rootKeys rs := fun hr => unmet ((h.mem k).2 (.of_mem hr))
    have unreferred : ∀ q ∈ reached, (p.references q).count k = 0 := fun q hq =>
      List.count_eq_zero.2 fun hr => unmet ((h.mem k).2 (((h.mem q).1 hq).tail hr))
    rw [List.count_eq_zero.2 unrooted, List.sum_eq_zero (List.forall_mem_map.2 unreferred)] at tally
    cases tally
  by_cases always : p.AlwaysBinds k.node
  · exact .inl ⟨h.kept k hk (.inl always), .inl always⟩
  have bound : n.isVarying = false := by
    cases n <;> first | rfl | cases hb
  have count := h.passed k hk ⟨n, hn, bound, .inr ⟨always, Nat.le_of_eq once⟩⟩
  -- what no code refers to is no operand
  have unread : ∀ q, (p.references q).count k = 0 → emitted q * (p.operandsAt q).count k = 0 :=
    fun q hq => by
      have fewer := (p.operandsAt_sublist q).count_le k
      rw [Nat.le_zero.1 (fewer.trans (Nat.le_of_eq hq)), Nat.mul_zero]
  by_cases root : k ∈ p.rootKeys rs
  · have one := List.one_le_count_iff.2 root
    have none : ∀ q ∈ reached, (p.references q).count k = 0 :=
      List.forall_mem_map.1 (List.sum_eq_zero_iff.1 (by omega))
    have zero := List.sum_eq_zero (List.forall_mem_map.2 fun q hq => unread q (none q hq))
    exact .inl ⟨by omega, .inr root⟩
  · rw [List.count_eq_zero.2 root, Nat.zero_add] at tally count
    obtain ⟨front, q, back, rfl, single, others⟩ := exists_of_sum_map_eq_one tally.symm
    have refers : p.References q k := List.one_le_count_iff.1 (Nat.le_of_eq single.symm)
    have operand : k ∈ p.operandsAt q := by
      refine (Plan.operand_or_layout refers).resolve_right ?_
      rintro ⟨n', hn', layout⟩
      cases hn.symm.trans hn'
      cases (NodeOf.isStructType_of_mayBind hb).symm.trans layout
    have fewer := (p.operandsAt_sublist q).count_le k
    have one : (p.operandsAt q).count k = 1 :=
      Nat.le_antisymm (fewer.trans (Nat.le_of_eq single)) (List.one_le_count_iff.2 operand)
    have zero : ((front ++ back).map fun q => emitted q * (p.operandsAt q).count k).sum = 0 :=
      List.sum_eq_zero (List.forall_mem_map.2 fun q hq => unread q (others q hq))
    rw [List.map_append, List.sum_append] at zero
    rw [List.map_append, List.sum_append, List.map_cons, List.sum_cons, one, Nat.mul_one] at count
    exact .inr ⟨q, by simp, operand, by omega⟩

end BuildState.Emits

variable {g : Graph} {request : BuildRequest} {options : BuildOptions} {host : Host} {a : Artifact}

/-- In a build without branches, contexts and scopes of their own code that is kept under a name and
varyings are generated once, and whatever is passed on is generated again for each reference by code that
is generated. So a value that is referred to once is computed as often as the code that refers to it is
generated, unless it is the result of a call or a root. -/
theorem emitted_of_build (h : build g request options host = .ok a) : ∃ p s,
    Plan.make g options (request.roots.map Prod.snd) host = .ok p ∧ run p request.roots = .ok s ∧
      (p.Plain → ∃ reached emitted, s.Emits p request.roots reached emitted ∧
        ∀ k n, p.node k.node = .ok n → n.isTemp = true → s.cache.uses k = 1 →
          (s.fresh k).length = 1 ∧ (p.AlwaysBinds k.node ∨ k ∈ p.rootKeys request.roots) ∨
            ∃ q ∈ reached, k ∈ p.operandsAt q ∧ (s.fresh k).length = emitted q) := by
  obtain ⟨p, s, hmake, hrun, -, -⟩ := recorded_of_build h
  refine ⟨p, s, hmake, hrun, fun hp => ?_⟩
  obtain ⟨counted, placed, audit⟩ := run_audit hp hrun
  refine ⟨counted, _, audit.emits, fun k n hn temp once => ?_⟩
  have binds := NodeOf.mayBind_of_isTemp temp
  rw [← audit.emits.computed k n hn binds]
  exact audit.emits.single hn binds once

/-- A stack that adds a sine to a variable and gives out the variable, and twice its value. -/
def piled : Graph := .ofNodes
  [.const .float [0], .var ⟨0⟩ (some "acc") false, .const .float [1], .math .sin [⟨2⟩],
    .assign ⟨1⟩ ⟨3⟩ (some .add), .stack [⟨4⟩] (some ⟨1⟩), .operator .add ⟨5⟩ ⟨5⟩]

theorem make_piled : Plan.make piled (.ofDialect .glsl) [⟨6⟩] =
    .ok (.ofGraph piled (.ofDialect .glsl)) := rfl

/-- The sine is computed as often as the code of the assignment is generated. -/
theorem piled_emitted : ∃ a, build piled ⟨none, some ⟨6⟩, none⟩ (.ofDialect .glsl) = .ok a ∧
    ∃ s, run (.ofGraph piled (.ofDialect .glsl)) [(.fragment, ⟨6⟩)] = .ok s ∧
      s.cache.uses ⟨.root, ⟨3⟩, some .fragment⟩ = 1 ∧
        ∃ reached emitted, s.Emits (.ofGraph piled (.ofDialect .glsl)) [(.fragment, ⟨6⟩)] reached emitted ∧
          ∃ q ∈ reached, (s.fresh ⟨.root, ⟨3⟩, some .fragment⟩).length = emitted q := by
  have succeeds : achieves (fun _ => true)
      (build piled ⟨none, some ⟨6⟩, none⟩ (.ofDialect .glsl)) = true := by
    decide +kernel
  have single : leaves (fun s => s.cache.uses ⟨.root, ⟨3⟩, some .fragment⟩ = 1)
      (run (.ofGraph piled (.ofDialect .glsl)) [(.fragment, ⟨6⟩)]) = true := by
    decide +kernel
  obtain ⟨a, ha, -⟩ := of_achieves succeeds
  obtain ⟨p, s, hmake, hrun, emitted⟩ := emitted_of_build ha
  cases make_piled.symm.trans hmake
  obtain ⟨s', hs', once⟩ := of_leaves single
  cases hrun.symm.trans hs'
  have once := of_decide_eq_true once
  obtain ⟨reached, emitted, emits, each⟩ := emitted (.of_all rfl)
  refine ⟨a, ha, s, hrun, once, reached, emitted, emits, ?_⟩
  rcases each ⟨.root, ⟨3⟩, some .fragment⟩ _ rfl rfl once with ⟨-, always | root⟩ | ⟨q, hq, -, same⟩
  · cases always with
    | var hn => cases hn
    | call hn => cases hn
  · cases List.mem_singleton.1 root
  · exact ⟨q, hq, same⟩

/-- The value of the stack is asked for twice: the sine, which is referred to once, is computed twice,
and the body of the program adds it to the variable twice. -/
theorem piled_twice : ∃ a, build piled ⟨none, some ⟨6⟩, none⟩ (.ofDialect .glsl) = .ok a ∧
    (a.programs.map fun prog => (prog.body.filter fun st => st.target?.isSome).length) = [2] ∧
      ∃ p s, Plan.make piled (.ofDialect .glsl) [⟨6⟩] = .ok p ∧ p.Plain ∧
        run p [(.fragment, ⟨6⟩)] = .ok s ∧ s.cache.uses ⟨.root, ⟨3⟩, some .fragment⟩ = 1 ∧
          (s.fresh ⟨.root, ⟨3⟩, some .fragment⟩).length = 2 := by
  have succeeds : achieves (fun a => (a.programs.map fun prog =>
        (prog.body.filter fun st => st.target?.isSome).length) = [2])
      (build piled ⟨none, some ⟨6⟩, none⟩ (.ofDialect .glsl)) = true := by
    decide +kernel
  have twice : leaves (fun s => s.cache.uses ⟨.root, ⟨3⟩, some .fragment⟩ = 1 &&
        (s.fresh ⟨.root, ⟨3⟩, some .fragment⟩).length = 2)
      (run (.ofGraph piled (.ofDialect .glsl)) [(.fragment, ⟨6⟩)]) = true := by
    decide +kernel
  obtain ⟨a, ha, added⟩ := of_achieves succeeds
  obtain ⟨s, hs, computed⟩ := of_leaves twice
  rw [Bool.and_eq_true, decide_eq_true_eq, decide_eq_true_eq] at computed
  exact ⟨a, ha, of_decide_eq_true added, _, s, make_piled, .of_all rfl, hs, computed⟩

end ShaderGraph
