import ShaderGraph.Proofs.AskedBuild
import ShaderGraph.Proofs.CallsOnce

/-!
# The visits of a run

In a plain plan a run visits whatever analysis counted, apart from the layouts of structs
(`Audit.touched`). A node whose value is kept under a name asks for its operands once
(`Audit.count_askers_of_kept`), and so does a varying. What comes of this is told
in terms of an audit of the run (`BuildState.Audit`, `run_audit`): how often analysis
counted each node, and how often generation visited it or assigned to it.
-/

namespace ShaderGraph

open Build Relation

namespace Visit

variable {p : Plan} {k : CacheKey} {v : Visit} {visits : List Visit}

theorem mem_askers : k ∈ askers p visits ↔
    ∃ v older, v :: older <:+ visits ∧ v.asks p older = true ∧ v.key = k := by
  induction visits with
  | nil =>
    refine iff_of_false (fun h => nomatch h) ?_
    rintro ⟨v, older, hs, -⟩
    cases List.suffix_nil.1 hs
  | cons v rest ih =>
    rw [askers, List.mem_append, ih]
    constructor
    · rintro (hk | ⟨w, older, hs, hw⟩)
      · split at hk
        · next hv => exact ⟨v, rest, List.suffix_rfl, hv, (List.mem_singleton.1 hk).symm⟩
        · cases hk
      · exact ⟨w, older, hs.trans (List.suffix_cons v rest), hw⟩
    · rintro ⟨w, older, hs, hw, rfl⟩
      rcases List.suffix_cons_iff.1 hs with he | hs
      · obtain ⟨rfl, rfl⟩ := List.cons.inj he
        exact .inl (by rw [if_pos hw]; exact .head _)
      · exact .inr ⟨w, older, hs, hw, rfl⟩

/-- Among the visits of a node there is a first one. -/
theorem exists_first (hv : v ∈ visits) :
    ∃ w older, w :: older <:+ visits ∧ w.IsFirst v.key.node older := by
  by_contra none
  refine firsts_ne_nil hv rfl ?_
  have empty : ∀ l : List Visit, l <:+ visits → firsts v.key.node l = [] := by
    intro l hl
    induction l with
    | nil => rfl
    | cons w older ih =>
      rw [firsts, if_neg fun first => none ⟨w, older, hl, first⟩]
      exact ih ((List.suffix_cons w older).trans hl)
  exact empty visits List.suffix_rfl

/-- A key asks once when nothing that asks for it came before something that asks for it. -/
theorem count_askers_le_one (h : ∀ v older, v :: older <:+ visits → v.key = k →
    v.asks p older = true → k ∉ askers p older) : (askers p visits).count k ≤ 1 := by
  induction visits with
  | nil => exact Nat.zero_le 1
  | cons v rest ih =>
    rw [askers, List.count_append]
    by_cases hv : v.asks p rest = true
    · rw [if_pos hv]
      by_cases hk : v.key = k
      · rw [List.count_eq_zero.2 (h v rest List.suffix_rfl hk hv)]
        exact List.count_le_length
      · rw [List.count_eq_zero.2 (by simpa using Ne.symm hk), Nat.zero_add]
        exact ih fun w older hs => h w older (hs.trans (List.suffix_cons v rest))
    · rw [if_neg hv, List.count_nil, Nat.zero_add]
      exact ih fun w older hs => h w older (hs.trans (List.suffix_cons v rest))

end Visit

namespace Plan

variable {p : Plan} {rs : List (Stage × NodeId)} {k : CacheKey}

theorem node_of_operandsAt {k' : CacheKey} (h : k' ∈ p.operandsAt k) : ∃ n, p.node k.node = .ok n := by
  unfold operandsAt at h
  split at h
  · next n hn => exact ⟨n, hn⟩
  · cases h

/-- What is below the roots is built in its own place, and its records are kept in the root scope. -/
theorem Beneath.resolved (h : p.Beneath (p.rootKeys rs) k) :
    p.resolve k.node = .ok k.node ∧ k.scope = .root := by
  obtain ⟨a, ha, hg⟩ := h
  cases hg with
  | refl =>
    obtain ⟨r, -, ha⟩ := List.mem_flatMap.1 ha
    obtain ⟨c, -, ha⟩ := List.mem_filterMap.1 ha
    obtain ⟨hm, hs, -⟩ := keyOf?_eq_some.1 ha
    exact ⟨resolve_of_resolve hm, hs⟩
  | tail _ hr =>
    unfold References references at hr
    split at hr
    · obtain ⟨c, -, ha⟩ := List.mem_filterMap.1 hr
      obtain ⟨hm, hs, -⟩ := keyOf?_eq_some.1 ha
      exact ⟨resolve_of_resolve hm, hs⟩
    · cases hr

/-- What is below the roots is counted where the roots are, and whatever counted keys refer to. -/
theorem Beneath.counted {counted : List CacheKey} {uses : CacheKey → Nat}
    (hc : ∀ k, 0 < uses k ↔ k ∈ counted)
    (tally : ∀ k, uses k = (p.rootKeys rs).count k + (counted.flatMap p.references).count k)
    (h : p.Beneath (p.rootKeys rs) k) : k ∈ counted := by
  obtain ⟨a, ha, hg⟩ := h
  induction hg with
  | refl =>
    refine (hc a).1 ?_
    have := tally a
    have := List.one_le_count_iff.2 ha
    omega
  | @tail b c _ hr ih =>
    refine (hc c).1 ?_
    have := tally c
    have := List.one_le_count_iff.2 (List.mem_flatMap_of_mem ih hr)
    omega

end Plan

namespace BuildState

variable {p : Plan} {s : BuildState} {rs : List (Stage × NodeId)} {counted placed : List CacheKey}
  {k q : CacheKey} {v w : Visit} {older : List Visit} {n : Node}

/-- The node of a key has a type that is not void. -/
def HasValue (p : Plan) (s : BuildState) (k : CacheKey) : Prop :=
  ∃ active t type s', typeOf k.node (Env.root p active t) s = .ok (type, s') ∧ type ≠ .void

/-- The value of the node of a key is kept under a name: it is always bound, or it is referred to more
than once. -/
def KeptOnce (p : Plan) (s : BuildState) (k : CacheKey) : Prop :=
  p.AlwaysBinds k.node ∨ p.MayBind k ∧ s.HasValue p k ∧ 2 ≤ s.cache.uses k

theorem KeptOnce.mayBind (h : s.KeptOnce p k) : p.MayBind k := h.elim Plan.AlwaysBinds.mayBind And.left

/-- What a run of a plain plan leaves behind: analysis counted the keys `counted`, and generation
assigned to the places `placed`. -/
structure Audit (p : Plan) (rs : List (Stage × NodeId)) (counted placed : List CacheKey)
    (s : BuildState) : Prop where
  plain : p.Plain
  done : run p rs = .ok s
  orderly : s.Orderly p
  coherent : s.Coherent p
  nodup : counted.Nodup
  counted_iff : ∀ k, 0 < s.cache.uses k ↔ k ∈ counted
  below : ∀ k ∈ counted, p.Beneath (p.rootKeys rs) k
  tally : ∀ k, s.cache.uses k = (p.rootKeys rs).count k + (counted.flatMap p.references).count k
  places : ∀ k ∈ placed, p.IsPlace k
  met : ∀ k ∈ s.visits.map Visit.key ++ placed, p.Beneath (p.rootKeys rs) k
  flow : ∀ k, (s.visits.map Visit.key).count k + placed.count k = (p.rootKeys rs).count k +
    ((Visit.askers p s.visits).flatMap p.operandsAt).count k + (placed.flatMap p.operandsAt).count k

namespace Audit

variable (h : s.Audit p rs counted placed)

include h

/-- What is below the roots was counted. -/
theorem counted_of_below (hk : p.Beneath (p.rootKeys rs) k) : k ∈ counted :=
  hk.counted h.counted_iff h.tally

/-- For each visit one asks for the operands of the node. -/
theorem exists_asker (hv : v ∈ s.visits) (hn : p.node v.key.node = .ok n) :
    ∃ a ∈ Visit.askers p s.visits, p.operandsAt a = p.operandsAt v.key ∧ a.node = v.key.node := by
  obtain ⟨older, suffix⟩ := exists_suffix_of_mem hv
  cases hvar : n.isVarying with
  | true =>
    obtain ⟨w, older', suffix', first⟩ := Visit.exists_first hv
    have hn' : p.node w.key.node = .ok n := by rw [first.1, hn]
    refine ⟨w.key, Visit.mem_askers.2 ⟨w, older', suffix', ?_, rfl⟩, ?_, first.1⟩
    · rw [Visit.asks_of_node hn', hvar, if_pos rfl, first.1]
      exact decide_eq_true first
    · rw [Plan.operandsAt_of_node hn', Plan.operandsAt_of_node hn]
      cases n <;> first | rfl | cases hvar
  | false =>
    cases hr : v.recalls with
    | false =>
      refine ⟨v.key, Visit.mem_askers.2 ⟨v, older, suffix, ?_, rfl⟩, rfl, rfl⟩
      rw [Visit.asks_of_node hn, hvar, hr, Bool.and_false]
      rfl
    | true =>
      obtain ⟨w, hw, hk, fresh, -⟩ := (h.orderly.told v older suffix).recalled hr
      obtain ⟨older', suffix'⟩ := exists_suffix_of_mem hw
      have hn' : p.node w.key.node = .ok n := by rw [hk, hn]
      refine ⟨w.key, Visit.mem_askers.2 ⟨w, older', ?_, ?_, rfl⟩, by rw [hk], by rw [hk]⟩
      · exact (suffix'.trans (List.suffix_cons v older)).trans suffix
      · rw [Visit.asks_of_node hn', hvar, fresh, Bool.and_false]
        rfl

/-- Whatever is below the roots was visited or assigned to, unless it is the layout of a struct. -/
theorem touched (hk : p.Beneath (p.rootKeys rs) k) : k ∈ s.visits.map Visit.key ++ placed ∨
    ∃ n, p.node k.node = .ok n ∧ n.isStructType = true := by
  have met : ∀ {k}, 0 < (s.visits.map Visit.key).count k + placed.count k →
      k ∈ s.visits.map Visit.key ++ placed := fun hc => by
    rw [← List.count_append] at hc
    exact List.count_pos_iff.1 hc
  obtain ⟨a, ha, hg⟩ := hk
  induction hg with
  | refl =>
    refine .inl (met ?_)
    have := h.flow a
    have := List.one_le_count_iff.2 ha
    omega
  | @tail b c _ hr ih =>
    rcases ih with hb | ⟨n, hn, layout⟩
    · refine (Plan.operand_or_layout hr).imp_left fun hc => met ?_
      rcases List.mem_append.1 hb with hb | hb
      · obtain ⟨v, hv, rfl⟩ := List.mem_map.1 hb
        obtain ⟨n, hn⟩ := Plan.node_of_operandsAt hc
        obtain ⟨a, ha, operands, -⟩ := h.exists_asker hv hn
        have := h.flow c
        have := List.one_le_count_iff.2 (List.mem_flatMap_of_mem ha (operands ▸ hc))
        omega
      · have := h.flow c
        have := List.one_le_count_iff.2 (List.mem_flatMap_of_mem hb hc)
        omega
    · unfold Plan.References at hr
      rw [Plan.references_of_isStructType hn layout] at hr
      cases hr

/-- A later state knows the type of a node that has one. -/
theorem exists_typed (hk : p.Beneath (p.rootKeys rs) k) (value : s.HasValue p k) : ∃ type s',
    s.Finds p s' ∧ s'.Coherent p ∧ s'.typeIn? ⟨k.node, []⟩ = some type ∧ type ≠ .void := by
  obtain ⟨active, t, type, s', found, notVoid⟩ := value
  have start : (Law.finding p [] []).inv (Env.root p active t) s := ⟨⟨rfl, rfl⟩, h.coherent, trivial⟩
  obtain ⟨⟨finds, -⟩, typed⟩ := (typeOf_finds k.node s start).post found
  exact ⟨type, s', finds, finds.coherent h.coherent, typed _ hk.resolved.1, notVoid⟩

/-- A node whose value is kept leaves a name behind. -/
theorem not_slack (hk : p.Beneath (p.rootKeys rs) k) (kept : s.KeptOnce p k) (hv : v.key = k)
    (mute : v.code = none → p.Mute k.node) : ¬s.Slack p v := by
  subst hv
  rintro ⟨unbound, slack⟩
  obtain ⟨-, value, shared⟩ := kept.resolve_left unbound
  obtain ⟨type, s', finds, coherent, typed, notVoid⟩ := h.exists_typed hk value
  rcases slack with once | none | void
  · omega
  · exact notVoid ((mute none).void coherent typed)
  · exact notVoid (Option.some.inj (typed.symm.trans (finds.typeIn? void)))

/-- What was visited between a question and the answer is another node. -/
theorem apart (hv : v :: older <:+ s.visits) (hw : w ∈ older.take (older.length - v.since)) :
    w.key.node ≠ v.key.node := by
  refine run_apart h.plain h.done (h.met v.key ?_) ((h.orderly.told v older hv).inside w hw)
  exact List.mem_append_left _ (List.mem_map_of_mem (hv.subset (.head _)))

/-- Between two visits of a node, of which the later is not recalled, a name was not left behind. -/
theorem slack_of_fresh (hv : v :: older <:+ s.visits) (hm : p.MayBind v.key)
    (fresh : v.recalls = false) (hw : w ∈ older) (hk : w.key = v.key) : s.Slack p w := by
  rw [← List.take_append_drop (older.length - v.since) older] at hw
  rcases List.mem_append.1 hw with hw | hw
  · exact absurd (congrArg CacheKey.node hk) (h.apart hv hw)
  · exact (h.orderly.told v older hv).fresh fresh hm w hw hk

/-- A value that is kept is computed once. -/
theorem fresh_once (hk : p.Beneath (p.rootKeys rs) k) (kept : s.KeptOnce p k)
    (hv : v :: older <:+ s.visits) (hkv : v.key = k) (fresh : v.recalls = false) :
    ∀ w ∈ older, w.key ≠ k := by
  rintro w hw hkw
  subst hkv
  obtain ⟨older', suffix⟩ := exists_suffix_of_mem ((List.suffix_cons v older).trans hv |>.subset hw)
  refine h.not_slack hk kept hkw (fun none => ?_) (h.slack_of_fresh hv kept.mayBind fresh hw hkw)
  have mute := (h.orderly.told w older' suffix).mute none
  rwa [hkw] at mute

/-- A value that is kept asks for its operands once. -/
theorem count_askers_of_kept (hk : p.Beneath (p.rootKeys rs) k) (kept : s.KeptOnce p k) :
    (Visit.askers p s.visits).count k ≤ 1 := by
  refine Visit.count_askers_le_one fun v older hv hkv asks hmem => ?_
  obtain ⟨w, older', suffix, -, hkw⟩ := Visit.mem_askers.1 hmem
  obtain ⟨n, hn, hb⟩ := kept.mayBind
  subst hkv
  have bound : n.isVarying = false := by
    cases n <;> first | rfl | cases hb
  rw [Visit.asks_of_node hn, bound, hb, Bool.true_and] at asks
  have fresh : v.recalls = false := by simpa using asks
  exact h.fresh_once hk kept hv rfl fresh w (suffix.subset (.head _)) hkw

/-- A varying asks for its source with one visit only. -/
theorem askers_of_isVarying (hn : p.node k.node = .ok n) (hvar : n.isVarying = true)
    (hv : v :: older <:+ s.visits) (hk : v.key.node = k.node) (asks : v.asks p older = true) :
    ∀ w ∈ older, w.key.node ≠ k.node := by
  intro w hw same
  have hn' : p.node v.key.node = .ok n := hk ▸ hn
  rw [Visit.asks_of_node hn', if_pos hvar, decide_eq_true_eq] at asks
  rw [← List.take_append_drop (older.length - v.since) older] at hw
  rcases List.mem_append.1 hw with hw | hw
  · exact h.apart hv hw (same.trans hk.symm)
  · exact asks.2 w hw (same.trans hk.symm)

/-- A varying asks for its source once. -/
theorem count_askers_of_isVarying (hn : p.node k.node = .ok n) (hvar : n.isVarying = true) :
    (Visit.askers p s.visits).count k ≤ 1 := by
  refine Visit.count_askers_le_one fun v older hv hkv asks hmem => ?_
  obtain ⟨w, older', suffix, -, hkw⟩ := Visit.mem_askers.1 hmem
  exact h.askers_of_isVarying hn hvar hv (congrArg CacheKey.node hkv) asks w
    (suffix.subset (.head _)) (congrArg CacheKey.node hkw)

end Audit

end BuildState

namespace Build

open BuildState

variable {p : Plan} {rs : List (Stage × NodeId)} {s : BuildState}

/-- The audit of a run of a plain plan. -/
theorem run_audit (hp : p.Plain) (h : run p rs = .ok s) :
    ∃ counted placed, s.Audit p rs counted placed := by
  obtain ⟨s₀, hanalyze, unvisited, orderly, coherent, asks⟩ := run_asks hp h
  obtain ⟨counted, nodup, grown, below, tally⟩ := analyze_tallies hp hanalyze
  obtain ⟨new, placed, hnew, places, met, balanced⟩ := asks.visits
  rw [unvisited, List.append_nil] at hnew
  have uses := asks.proceeds.uses
  refine ⟨counted, placed, hp, h, orderly, coherent, nodup, fun k => ?_, below, fun k => ?_, places,
    hnew ▸ met, fun k => ?_⟩
  · rw [uses, grown]
  · rw [uses, tally]
  · have flow := balanced k
    rw [unvisited] at flow
    simpa [Visit.askers] using flow

end Build

end ShaderGraph
