import ShaderGraph.Proofs.Recalled
import ShaderGraph.Proofs.Asking
import ShaderGraph.Proofs.Unbranched
import ShaderGraph.Proofs.Labels

/-!
# What generation asks for

A visit that is not answered from memory asks for the operands of its node (`Visit.asks`); a varying
asks for its source when it is met first. Something that is assigned to is generated as a place,
without a visit. So between two states of generation the visits and the places are what was asked
for, by the step itself or by other visits and places (`Visit.Balanced`, `BuildState.Asks`).

In a plain plan a name that a node is bound to can always be seen. `BuildState.Orderly` says what is
known of the visits and of the bound names then: a node that is referred to more than once is bound
by the first answer that gives it a value, and later answers are that name.
-/

namespace ShaderGraph

open Build Relation

/-- Whether something of the node can be assigned to that is not a name. -/
def NodeOf.isPlace {ρ μ : Type} : NodeOf ρ μ → Bool
  | split .. | member .. | index .. | storageBuffer .. => true
  | _ => false

/-- Whether a node is generated for its statements only. -/
def NodeOf.isStill {ρ μ : Type} : NodeOf ρ μ → Bool
  | assign .. | jump .. | stack _ none => true
  | _ => false

namespace Plan

variable {p : Plan} {s : BuildState} {id : NodeId} {t : ValueType}

/-- A node that is generated without a value. -/
inductive Mute (p : Plan) : NodeId → Prop
  | still {id : NodeId} {n : Node} : p.node id = .ok n → n.isStill = true → Mute p id
  | call {id : NodeId} {f : FunctionId} {args : List NodeId} :
      p.node id = .ok (.call f args) → p.resultOf? f = some .void → Mute p id
  | convert {id source : NodeId} : p.node id = .ok (.convert source .void) → Mute p id
  | passes {id c m : NodeId} {n : Node} :
      p.node id = .ok n → n.inner? = some c → p.resolve c = .ok m → Mute p m → Mute p id
  | fallback {id c m : NodeId} {key : String} :
      p.node id = .ok (.contextValue key (some c)) → p.resolve c = .ok m → Mute p m → Mute p id

/-- The type of a node without a value is void. -/
theorem Mute.void (h : p.Mute id) (hs : s.Coherent p) (ht : s.typeIn? ⟨id, []⟩ = some t) :
    t = .void := by
  induction h with
  | @still id n hn hstill =>
    have suits := (hs.fits ht).own hn
    cases n with
    | assign | jump => exact suits
    | stack nodes output =>
      cases output with
      | none => exact suits
      | some output => cases hstill
    | _ => cases hstill
  | call hn hr =>
    have result := (hs.fits ht).call hn
    exact Option.some.inj (result.symm.trans hr)
  | convert hn => exact (hs.fits ht).convert hn
  | passes hn hi hm _ ih => exact ih ((hs.fits ht).taken (.alike hn hi hm))
  | fallback hn hm _ ih => exact ih ((hs.fits ht).taken (.fallback hn rfl hm))

/-- The node of a key can be assigned to, and is not a name. -/
def IsPlace (p : Plan) (k : CacheKey) : Prop := ∃ n, p.node k.node = .ok n ∧ n.isPlace = true

/-- The node of a key may be bound to a name. -/
def MayBind (p : Plan) (k : CacheKey) : Prop := ∃ n, p.node k.node = .ok n ∧ n.mayBind = true

/-- A node whose value is bound to a name however often it is referred to: a variable, or a call with a
result. -/
inductive AlwaysBinds (p : Plan) (id : NodeId) : Prop
  | var {value : NodeId} {name : Option String} {readOnly : Bool} :
      p.node id = .ok (.var value name readOnly) → AlwaysBinds p id
  | call {f : FunctionId} {args : List NodeId} :
      p.node id = .ok (.call f args) → p.resultOf? f ≠ some .void → AlwaysBinds p id

theorem AlwaysBinds.mayBind {k : CacheKey} (h : p.AlwaysBinds k.node) : p.MayBind k := by
  cases h with
  | var hn => exact ⟨_, hn, rfl⟩
  | call hn => exact ⟨_, hn, rfl⟩

end Plan

namespace Visit

variable {p : Plan} {v : Visit} {n : Node} {asked asked' placed placed' : List CacheKey}
  {old now mid : List Visit} {k : CacheKey}

/-- Whether a visit that came after some others asks for the operands of its node. -/
def asks (p : Plan) (older : List Visit) (v : Visit) : Bool :=
  (p.node v.key.node).toOption.any fun n =>
    if n.isVarying then decide (v.IsFirst v.key.node older) else !(n.mayBind && v.recalls)

/-- The keys of the visits that ask for the operands of their nodes. -/
def askers (p : Plan) : List Visit → List CacheKey
  | [] => []
  | v :: older => (if v.asks p older then [v.key] else []) ++ askers p older

theorem asks_of_node {older : List Visit} (hn : p.node v.key.node = .ok n) : v.asks p older =
    if n.isVarying then decide (v.IsFirst v.key.node older) else !(n.mayBind && v.recalls) := by
  unfold asks
  rw [hn]
  rfl

theorem askers_sublist (visits : List Visit) : (askers p visits).Sublist (visits.map Visit.key) := by
  induction visits with
  | nil => exact .slnil
  | cons v older ih =>
    rw [askers]
    split
    · exact ih.cons_cons _
    · exact ih.cons _

/-- Between two logs the visits and the places are what was asked for: by a step that asks for `asked`,
by the visits and by the places. -/
def Balanced (p : Plan) (asked placed : List CacheKey) (old now : List Visit) : Prop :=
  ∀ k, (now.map key).count k + placed.count k + ((askers p old).flatMap p.operandsAt).count k =
    (old.map key).count k + asked.count k + ((askers p now).flatMap p.operandsAt).count k +
      (placed.flatMap p.operandsAt).count k

namespace Balanced

theorem refl (p : Plan) (old : List Visit) : Balanced p [] [] old old := fun _ => rfl

theorem trans (h : Balanced p asked placed old mid) (h' : Balanced p asked' placed' mid now) :
    Balanced p (asked ++ asked') (placed ++ placed') old now := by
  intro k
  have before := h k
  have after := h' k
  rw [List.count_append, List.count_append, List.flatMap_append, List.count_append]
  omega

/-- A visit is logged after what it asked for. -/
theorem log (h : Balanced p asked placed old now)
    (ha : asked = if v.asks p now then p.operandsAt v.key else []) :
    Balanced p [v.key] placed old (v :: now) := by
  intro k
  have before := h k
  rw [askers, List.flatMap_append, List.map_cons, List.count_append, ← List.singleton_append,
    List.count_append]
  split at ha
  · next hv =>
    rw [if_pos hv, List.flatMap_singleton, ← ha]
    omega
  · next hv =>
    subst ha
    rw [if_neg hv, List.flatMap_nil, List.count_nil] at *
    omega

/-- What is assigned to takes what it asks for. -/
theorem place (h : Balanced p (p.operandsAt k) placed old now) :
    Balanced p [k] (k :: placed) old now := by
  intro k'
  have before := h k'
  rw [← List.singleton_append, List.count_append, List.flatMap_append, List.flatMap_singleton,
    List.count_append]
  omega

end Balanced

end Visit

namespace BuildState

variable {p : Plan} {s s' s'' : BuildState} {asked asked' : List CacheKey} {k : CacheKey}
  {b : BoundName} {v w : Visit} {older : List Visit}

/-- A visit need not have left a name behind: its node is not one that is always bound, and it is
referred to once or has no value. -/
def Slack (p : Plan) (s : BuildState) (v : Visit) : Prop :=
  ¬p.AlwaysBinds v.key.node ∧
    (s.cache.uses v.key ≤ 1 ∨ v.code = none ∨ s.typeIn? ⟨v.key.node, []⟩ = some .void)

/-- A node is bound to a name that a statement of its stage declares, and that was an answer. -/
structure GoesBy (p : Plan) (s : BuildState) (k : CacheKey) (b : BoundName) : Prop where
  block : b.block = .outermost
  frame : ∀ f, b.frame = some f → f = .root
  node : p.MayBind k
  origin : ∃ v ∈ s.visits, v.key = k ∧ v.recalls = false ∧ v.code = some (localName b.name)
  declared : ∃ t type, k.stage = some t ∧
    ∃ st ∈ (s.stages.get t).outer.statements, st.typed = [(b.name, type)]
  numbered : ∀ n, p.node k.node = .ok n → n.isTemp = true → ∃ i : Nat, b.name = "nodeVar" ++ toString i
  cause : p.AlwaysBinds k.node ∨ 2 ≤ s.cache.uses k

/-- What a visit tells that came after some others. -/
structure Tale (p : Plan) (s : BuildState) (v : Visit) (older : List Visit) : Prop where
  recalled : v.recalls = true → ∃ w ∈ older, w.key = v.key ∧ w.recalls = false ∧ w.code = v.code
  cause : v.recalls = true → p.AlwaysBinds v.key.node ∨ 2 ≤ s.cache.uses v.key
  /-- What is not recalled was not kept by any answer before the question. -/
  fresh : v.recalls = false → p.MayBind v.key →
    ∀ w ∈ older.drop (older.length - v.since), w.key = v.key → s.Slack p w
  /-- What was visited between the question and the answer is below the node. -/
  inside : ∀ w ∈ older.take (older.length - v.since), TransGen p.References v.key w.key
  mute : v.code = none → p.Mute v.key.node

/-- What is known of the visits and the bound names in a plain plan. -/
structure Orderly (p : Plan) (s : BuildState) : Prop where
  blocks : ∀ t, (s.stages.get t).openBlocks = [.outermost]
  bound : ∀ k b, s.cache.bound? k = some b → s.GoesBy p k b
  held : ∀ v ∈ s.visits, p.MayBind v.key → (s.cache.bound? v.key).isSome = true ∨ s.Slack p v
  told : ∀ v older, v :: older <:+ s.visits → s.Tale p v older
  written : ∀ id n, p.node id = .ok n → n.isVarying = true →
    (isWritten s id = true ↔ ∃ v ∈ s.visits, v.key.node = id)

/-- A later state as far as types, counts and the statements of the outermost blocks go. -/
structure Proceeds (p : Plan) (s s' : BuildState) : Prop where
  advances : s.Advances p s'
  finds : s.Finds p s'
  uses : ∀ k, s'.cache.uses k = s.cache.uses k
  statements : ∀ t, (s.stages.get t).outer.statements <+: (s'.stages.get t).outer.statements
  blocks : ∀ t, (s'.stages.get t).openBlocks = (s.stages.get t).openBlocks

namespace Proceeds

theorem refl (s : BuildState) : s.Proceeds p s :=
  ⟨.refl s, .refl s, fun _ => rfl, fun _ => List.prefix_rfl, fun _ => rfl⟩

theorem trans (h : s.Proceeds p s') (h' : s'.Proceeds p s'') : s.Proceeds p s'' where
  advances := h.advances.trans h'.advances
  finds := h.finds.trans h'.finds
  uses k := (h'.uses k).trans (h.uses k)
  statements t := (h.statements t).trans (h'.statements t)
  blocks t := (h'.blocks t).trans (h.blocks t)

theorem of_quiet (ha : s.Advances p s') (hf : s.Finds p s') (hq : s.Quiet s')
    (hr : s'.cache.records = s.cache.records) : s.Proceeds p s' where
  advances := ha
  finds := hf
  uses _ := NodeCache.uses_of_records hr
  statements t := by rw [hq.outer]
  blocks t := by
    unfold StageBuild.openBlocks
    rw [hq.inner, hq.outer]

/-- A change of what was collected for a stage, which may add statements to the outermost block. -/
theorem modify (s : BuildState) (e : Stage) {f : StageBuild → StageBuild}
    (hs : ∀ b, b.outer.statements <+: (f b).outer.statements)
    (hb : ∀ b, (f b).openBlocks = b.openBlocks) :
    s.Proceeds p { s with stages := s.stages.modify e f } where
  advances := .of_eq rfl rfl rfl
  finds := .of_eq rfl rfl rfl rfl
  uses _ := rfl
  statements t := by
    rw [PerStage.get_modify]
    split
    · exact hs _
    · exact List.prefix_rfl
  blocks t := s.stages.map_get_modify e t hb

theorem slack (h : s.Proceeds p s') (hv : s.Slack p v) : s'.Slack p v := by
  refine hv.imp_right (Or.imp (fun hu => ?_) (Or.imp_right fun ht => h.finds.typeIn? ht))
  rwa [h.uses]

theorem goesBy (h : s.Proceeds p s') (hv : s.visits ⊆ s'.visits) (hb : s.GoesBy p k b) :
    s'.GoesBy p k b where
  block := hb.block
  frame := hb.frame
  node := hb.node
  origin := by
    obtain ⟨v, hv', hk⟩ := hb.origin
    exact ⟨v, hv hv', hk⟩
  declared := by
    obtain ⟨t, type, ht, st, hst, typed⟩ := hb.declared
    exact ⟨t, type, ht, st, (h.statements t).subset hst, typed⟩
  numbered := hb.numbered
  cause := by
    rw [h.uses]
    exact hb.cause

theorem tale (h : s.Proceeds p s') (ht : s.Tale p v older) : s'.Tale p v older where
  recalled := ht.recalled
  cause hr := by
    rw [h.uses]
    exact ht.cause hr
  fresh hr hm w hw hk := h.slack (ht.fresh hr hm w hw hk)
  inside := ht.inside
  mute := ht.mute

end Proceeds

namespace Orderly

/-- A change that neither visits nor binds anything, nor writes a varying. -/
theorem of_same (h : s.Orderly p) (hg : s.Proceeds p s') (hv : s'.visits = s.visits)
    (hb : ∀ k, s'.cache.bound? k = s.cache.bound? k)
    (hw : ∀ id, isWritten s' id = isWritten s id) : s'.Orderly p where
  blocks t := (hg.blocks t).trans (h.blocks t)
  bound k b hk := hg.goesBy (hv ▸ List.Subset.refl _) (h.bound k b (hb k ▸ hk))
  held v hmem hm := by
    rw [hb]
    exact (h.held v (hv ▸ hmem) hm).imp_right hg.slack
  told v older hs := hg.tale (h.told v older (hv ▸ hs))
  written id n hn hvar := by
    rw [hw, hv]
    exact h.written id n hn hvar

/-- A visit is logged; the node may be bound to a name with it. -/
theorem log (h : s.Orderly p) (hg : s.Proceeds p s') (hv : s'.visits = v :: s.visits)
    (hb : ∀ k b, s'.cache.bound? k = some b → s.cache.bound? k = some b ∨ s'.GoesBy p k b)
    (hk : ∀ k, (s.cache.bound? k).isSome = true → (s'.cache.bound? k).isSome = true)
    (tale : s'.Tale p v s.visits)
    (held : p.MayBind v.key → (s'.cache.bound? v.key).isSome = true ∨ s'.Slack p v)
    (written : ∀ id n, p.node id = .ok n → n.isVarying = true →
      (isWritten s' id = true ↔ isWritten s id = true ∨ v.key.node = id)) : s'.Orderly p where
  blocks t := (hg.blocks t).trans (h.blocks t)
  bound k b hk := (hb k b hk).elim
    (fun hk => hg.goesBy (hv ▸ List.subset_cons_self _ _) (h.bound k b hk)) id
  held w hw hm := by
    rw [hv] at hw
    rcases List.mem_cons.1 hw with rfl | hw
    · exact held hm
    · exact (h.held w hw hm).imp (hk _) hg.slack
  told w older hs := by
    rw [hv] at hs
    rcases List.suffix_cons_iff.1 hs with he | hs
    · obtain ⟨rfl, rfl⟩ := List.cons.inj he
      exact tale
    · exact hg.tale (h.told w older hs)
  written id n hn hvar := by
    rw [written id n hn hvar, h.written id n hn hvar, hv]
    simp only [List.mem_cons, exists_eq_or_imp]
    exact or_comm

/-- A name that a node is bound to can be seen. -/
theorem sees {env : Env} {id : NodeId} (h : s.Orderly p) (hf : env.frames = [])
    (hb : s.cache.bound? (keyAt env s id) = some b) : (visitAt env s id none).Sees b := by
  have holds := h.bound _ b hb
  refine ⟨fun f hbf => ?_, StageBuild.isOpen_iff.2 ?_⟩
  · rw [holds.frame f hbf]
    show FrameId.root = Frame.current env.frames
    rw [hf]
    rfl
  · show b.block ∈ (s.stages.get env.stage).openBlocks
    rw [h.blocks, holds.block]
    exact .head _

end Orderly

/-- What happens between two states of generation in a plain plan, in a step that asks for the keys
`asked`. -/
structure Asks (p : Plan) (asked : List CacheKey) (s s' : BuildState) : Prop where
  proceeds : s.Proceeds p s'
  orderly : s.Orderly p → s'.Orderly p
  visits : ∃ new placed, s'.visits = new ++ s.visits ∧ (∀ k ∈ placed, p.IsPlace k) ∧
    (∀ k ∈ new.map Visit.key ++ placed, p.Beneath asked k) ∧
      Visit.Balanced p asked placed s.visits s'.visits

namespace Asks

theorem suffix (h : s.Asks p asked s') : s.visits <:+ s'.visits := by
  obtain ⟨new, -, hv, -⟩ := h.visits
  exact ⟨new, hv.symm⟩

/-- A change that neither visits nor binds anything, nor writes a varying. -/
theorem of_same (hg : s.Proceeds p s') (hv : s'.visits = s.visits)
    (hb : ∀ k, s'.cache.bound? k = s.cache.bound? k)
    (hw : ∀ id, isWritten s' id = isWritten s id) : s.Asks p [] s' :=
  ⟨hg, fun h => h.of_same hg hv hb hw, [], [], hv, fun _ hk => (nomatch hk), fun _ hk => (nomatch hk),
    hv ▸ .refl p _⟩

theorem refl (s : BuildState) : s.Asks p [] s :=
  of_same (.refl s) rfl (fun _ => rfl) fun _ => rfl

theorem of_still (hf : s.Finds p s') (hs : s'.still = s.still) : s.Asks p [] s' := by
  have quiet : s.Quiet s' := .of_still hs
  exact of_same (.of_quiet (.of_still hs) hf quiet (congrArg (NodeCache.records ∘ Still.cache) hs))
    quiet.visits quiet.bound (isWritten_of_still hs)

theorem trans (h : s.Asks p asked s') (h' : s'.Asks p asked' s'') :
    s.Asks p (asked ++ asked') s'' := by
  obtain ⟨new, placed, hv, places, below, balanced⟩ := h.visits
  obtain ⟨new', placed', hv', places', below', balanced'⟩ := h'.visits
  refine ⟨h.proceeds.trans h'.proceeds, h'.orderly ∘ h.orderly, new' ++ new, placed ++ placed', ?_, ?_, ?_,
    balanced.trans balanced'⟩
  · rw [hv', hv, List.append_assoc]
  · intro k hk
    exact (List.mem_append.1 hk).elim (places k) (places' k)
  · intro k hk
    simp only [List.map_append, List.mem_append] at hk below below'
    rcases hk with (hk | hk) | hk | hk
    · exact (below' k (.inl hk)).mono (List.subset_append_right _ _)
    · exact (below k (.inl hk)).mono (List.subset_append_left _ _)
    · exact (below k (.inr hk)).mono (List.subset_append_left _ _)
    · exact (below' k (.inr hk)).mono (List.subset_append_right _ _)

/-- What asks for nothing may come last. -/
theorem before (h : s.Asks p asked s') (h' : s'.Asks p [] s'') : s.Asks p asked s'' := by
  have all := h.trans h'
  rwa [List.append_nil] at all

/-- A visit is logged after the steps that it asked for. -/
theorem log (h : s.Asks p asked s') (hg : s'.Proceeds p s'') (hv : s''.visits = v :: s'.visits)
    (hk : v.key = k) (ha : asked = if v.asks p s'.visits then p.operandsAt v.key else [])
    (orderly : s.Orderly p → s''.Orderly p) : s.Asks p [k] s'' := by
  subst hk
  obtain ⟨new, placed, hnew, places, below, balanced⟩ := h.visits
  have operand : ∀ {k}, p.Beneath asked k → p.Beneath [v.key] k := by
    rintro k ⟨x, hx, hg⟩
    refine ⟨v.key, .head _, .head ?_ hg⟩
    rw [ha] at hx
    split at hx
    · exact (p.operandsAt_sublist v.key).subset hx
    · cases hx
  refine ⟨h.proceeds.trans hg, orderly, v :: new, placed, ?_, places, ?_, ?_⟩
  · rw [hv, hnew, List.cons_append]
  · intro k hk
    rcases List.mem_cons.1 hk with rfl | hk
    · exact .of_mem (.head _)
    · exact operand (below k hk)
  · rw [hv]
    exact balanced.log ha

/-- Something is assigned to after the steps that it asked for. -/
theorem place (h : s.Asks p (p.operandsAt k) s') (hk : p.IsPlace k) : s.Asks p [k] s' := by
  obtain ⟨new, placed, hnew, places, below, balanced⟩ := h.visits
  refine ⟨h.proceeds, h.orderly, new, k :: placed, hnew, List.forall_mem_cons.2 ⟨hk, places⟩, ?_,
    balanced.place⟩
  intro k' hk'
  rcases List.mem_append.1 hk' with hk' | hk'
  · obtain ⟨x, hx, hg⟩ := below k' (List.mem_append_left _ hk')
    exact ⟨k, .head _, .head ((p.operandsAt_sublist k).subset hx) hg⟩
  · rcases List.mem_cons.1 hk' with rfl | hk'
    · exact .of_mem (.head _)
    · obtain ⟨x, hx, hg⟩ := below k' (List.mem_append_right _ hk')
      exact ⟨k, .head _, .head ((p.operandsAt_sublist k).subset hx) hg⟩

end Asks

end BuildState

end ShaderGraph
