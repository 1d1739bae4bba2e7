import ShaderGraph.Proofs.Recording
import ShaderGraph.Proofs.ScopedState
import ShaderGraph.Proofs.Variables

/-!
# Changes that keep names in scope

The single changes that steps of generation make to a state: tables fill, names are taken,
statements are added, blocks are opened and closed, names are bound and nodes visited.
-/

namespace ShaderGraph.BuildState

open Statement StageBuild

variable {p : Plan} {t : Stage} {cs : List String} {s s' s'' : BuildState} {n : String}
  {st : Statement} {ss ss' : List Statement} {es : List Expr}

/-! ### Stages -/

theorem Holding.retain (h : s.Holding p) (hr : ∀ u, (s.stages.get u).Retains (s'.stages.get u))
    (hc : ∀ k, s'.cache.bound? k = s.cache.bound? k) : s'.Holding p := by
  intro u k b hk hb
  have holds := h u k b hk (hc k ▸ hb)
  refine ⟨holds.kind, (hr u).used _ holds.used, Nat.lt_of_lt_of_le holds.below (hr u).blocks,
    fun block hblock same => ?_, fun k' b' hk' hb' => holds.alone k' b' hk' (hc k' ▸ hb')⟩
  rcases (hr u).stack block hblock with new | ⟨old, hold, same', sub⟩
  · -- no name was bound in a block that is new
    have below := holds.below
    rw [← same] at below
    exact absurd below (Nat.not_lt.2 new)
  · obtain ⟨st, hst, declared⟩ := holds.declared old hold (same'.trans same)
    exact ⟨st, sub hst, declared⟩

theorem Logged.retain (h : s.Logged p) (he : s.Enters p s')
    (hr : ∀ u, (s.stages.get u).Retains (s'.stages.get u))
    (hc : ∀ k, s'.cache.bound? k = s.cache.bound? k) (hv : s'.visits = s.visits) : s'.Logged p where
  told := hv ▸ h.told
  known v hmem := (h.known v (hv ▸ hmem)).mono fun u =>
    knows_mono he (hr u).groups (hr u).properties
  used v hmem u b hk hb := (hr u).used _ (h.used v (hv ▸ hmem) u b hk hb)
  alone v hmem u b hk hb k b' hk' hb' := h.alone v (hv ▸ hmem) u b hk hb k b' hk' (hc k ▸ hb')
  apart := hv ▸ h.apart

/-- Nothing is bound or visited, and other stages stay as they are. -/
theorem Steps.of_retains (he : s.Enters p s') (hr : ∀ u, (s.stages.get u).Retains (s'.stages.get u))
    (ho : ∀ u, u ≠ t → (s'.stages.get u).body = (s.stages.get u).body)
    (hc : ∀ k, s'.cache.bound? k = s.cache.bound? k)
    (hv : s'.visits = s.visits) : s.Steps p t s' where
  enters := he
  retains := hr
  vertex ht := .of_body (ho .vertex (Ne.symm ht))
  others u hu _ := ho u hu
  bound _ k _ _ hb := .inl (hc k ▸ hb)
  asked _ hmem := .inl (hv ▸ hmem)
  holding h := h.retain hr hc
  logged h := h.retain he hr hc hv

theorem Steps.modify {f : StageBuild → StageBuild}
    (hf : (s.stages.get t).Retains (f (s.stages.get t))) :
    s.Steps p t { s with stages := s.stages.modify t f } := by
  refine .of_retains (.of_eq rfl rfl rfl rfl rfl) (fun u => ?_) (fun u hu => ?_)
    (fun _ => rfl) rfl
  · rw [PerStage.get_modify]
    split
    · next he => exact he ▸ hf
    · exact .refl _
  · rw [PerStage.get_modify, if_neg hu]

theorem Grows.modify {f : StageBuild → StageBuild}
    (adds : Adds (s.knows t) cs (s.stages.get t) (f (s.stages.get t)))
    (hg : (s.stages.get t).groups ⊆ (f (s.stages.get t)).groups)
    (ho : (f (s.stages.get t)).output = (s.stages.get t).output) :
    s.Grows p t cs { s with stages := s.stages.modify t f } := by
  have steps : s.Steps p t { s with stages := s.stages.modify t f } := .modify (.of_adds adds hg ho)
  refine ⟨steps, ?_⟩
  rw [PerStage.get_modify, if_pos rfl]
  exact adds.mono (steps.knows t)

/-- Tables fill between two states; nothing is added to an entry point, bound or visited. -/
structure Fills (p : Plan) (s s' : BuildState) : Prop extends s.Lists p s' where
  groups : ∀ u, (s.stages.get u).groups ⊆ (s'.stages.get u).groups
  records : s'.cache.records = s.cache.records
  visits : s'.visits = s.visits

theorem Fills.refl (s : BuildState) : s.Fills p s :=
  ⟨.refl s, fun _ => List.Subset.refl _, rfl, rfl⟩

theorem Fills.trans (h : s.Fills p s') (h' : s'.Fills p s'') : s.Fills p s'' :=
  ⟨h.toLists.trans h'.toLists, fun u => List.Subset.trans (h.groups u) (h'.groups u),
    h'.records.trans h.records, h'.visits.trans h.visits⟩

theorem Fills.grows (h : s.Fills p s') : s.Grows p t cs s' := by
  have body : ∀ u, (s'.stages.get u).body = (s.stages.get u).body := congrFun h.bodies
  refine ⟨.of_retains h.toEnters (fun u => .of_body (body u) (h.groups u)) (fun u _ => body u)
    (fun _ => NodeCache.bound?_of_records h.records) h.visits, .of_body (body t)⟩

theorem Grows.refl (s : BuildState) : s.Grows p t cs s := (Fills.refl s).grows

/-! ### Names -/

/-- A name is taken. -/
theorem Grows.reserve {f : StageBuild → StageBuild}
    (hn : (f (s.stages.get t)).names = (s.stages.get t).names.reserve n)
    (hf : ∀ b, (f b).body = { b.body with names := (f b).names })
    (hg : ∀ b, (f b).groups = b.groups) :
    s.Grows p t cs { s with stages := s.stages.modify t f } := by
  have body := hf (s.stages.get t)
  have stack : (f (s.stages.get t)).stack = (s.stages.get t).stack := by
    unfold stack
    rw [show (f (s.stages.get t)).inner = _ from congrArg EntryPoint.inner body,
      show (f (s.stages.get t)).outer = _ from congrArg EntryPoint.outer body]
    rfl
  have moves : Moves [] (s.stages.get t) (f (s.stages.get t)) := by
    refine .of_same (fun m hm => ?_) (Nat.le_of_eq (congrArg EntryPoint.nextBlock body).symm)
      (congrArg EntryPoint.properties body) (congrArg EntryPoint.locals body)
    rw [hn]
    exact Build.isUsed_reserve_of_isUsed hm
  exact .modify (.of_moves moves stack) (hg _ ▸ List.Subset.refl _)
    (congrArg EntryPoint.output body)

/-- A name that was free is taken. -/
structure Claims (p : Plan) (t : Stage) (cs : List String) (n : String) (s s' : BuildState) : Prop
    extends s.Grows p t cs s' where
  moves : Moves [n] (s.stages.get t) (s'.stages.get t)
  stack : (s'.stages.get t).stack = (s.stages.get t).stack
  unbound : s'.Unbound t n

theorem Tidy.claims (h : s.Tidy p t cs) {f : StageBuild → StageBuild}
    (free : (s.stages.get t).names.isUsed n = false)
    (hn : (f (s.stages.get t)).names = (s.stages.get t).names.reserve n)
    (hf : ∀ b, (f b).body = { b.body with names := (f b).names })
    (hg : ∀ b, (f b).groups = b.groups) :
    s.Claims p t cs n { s with stages := s.stages.modify t f } := by
  have body := hf (s.stages.get t)
  refine ⟨.reserve hn hf hg, ?_, ?_, h.unbound free⟩
  · have used : (f (s.stages.get t)).names.isUsed n = true := by
      rw [hn, NameTable.isUsed_reserve, beq_self_eq_true, Bool.true_or]
    rw [PerStage.get_modify, if_pos rfl]
    refine ⟨fun m hm => ?_, List.nodup_singleton n, fun m hm => ?_,
      Nat.le_of_eq (congrArg EntryPoint.nextBlock body).symm, [], ?_, ?_, .nil,
        fun _ hm => nomatch hm⟩
    · exact List.mem_singleton.1 hm ▸ ⟨free, used⟩
    · exact hn ▸ Build.isUsed_reserve_of_isUsed hm
    · rw [List.append_nil]
      exact congrArg (fun b : EntryPoint => b.properties.values) body
    · rw [List.map_nil, List.append_nil]
      exact congrArg EntryPoint.locals body
  · rw [PerStage.get_modify, if_pos rfl]
    unfold stack
    rw [show (f (s.stages.get t)).inner = _ from congrArg EntryPoint.inner body,
      show (f (s.stages.get t)).outer = _ from congrArg EntryPoint.outer body]
    rfl

/-- A property takes a name that was free. -/
theorem Grows.property {name : String} {type : ValueType}
    (free : (s.stages.get t).names.isUsed n = false)
    (new : (s.stages.get t).properties.get? name = none) :
    s.Grows p t cs { s with stages := (s.stages.modify t fun b =>
        { b with names := (s.stages.get t).names.reserve n }).modify t fun b => { b with
      locals := b.locals ++ [.declare n type none .mutable none]
      properties := b.properties.put name (type, n) } } := by
  rw [PerStage.modify_modify]
  refine .modify (.of_moves ⟨fun _ hm => (nomatch hm), .nil, fun m hm => ?_, Nat.le_refl _,
    [(type, n)], ?_, rfl, List.nodup_singleton n, fun m hm => ?_⟩ rfl) (List.Subset.refl _) rfl
  · exact Build.isUsed_reserve_of_isUsed hm
  · show (OrderedMap.put _ _ _).entries.map Prod.snd = _
    rw [OrderedMap.entries_put_of_none new, List.map_append]
    rfl
  · obtain rfl : m = n := List.mem_singleton.1 hm
    refine ⟨free, ?_, List.not_mem_nil⟩
    show (NameTable.reserve _ m).isUsed m = true
    rw [NameTable.isUsed_reserve, beq_self_eq_true, Bool.true_or]

/-- A name that was taken and not bound is freed. -/
theorem Steps.release (h : s.Steps p t s') (free : (s.stages.get t).names.isUsed n = false)
    (hu : s'.Unbound t n) : s.Steps p t { s' with stages := s'.stages.modify t fun b =>
      { b with names := b.names.release n } } := by
  have enters : s'.Enters p { s' with stages := s'.stages.modify t fun b =>
      { b with names := b.names.release n } } := .of_eq rfl rfl rfl rfl rfl
  have still : ∀ u m, m ≠ n ∨ u ≠ t → (s'.stages.get u).names.isUsed m = true →
      ((s'.stages.modify t fun b => { b with names := b.names.release n }).get u).names.isUsed m =
        true := by
    intro u m hne hm
    rw [PerStage.get_modify]
    split
    · next he =>
      rw [NameTable.isUsed_release, hm, Bool.and_true, bne_iff_ne]
      exact hne.resolve_right fun hne => hne he
    · exact hm
  have same {α : Type} (g : StageBuild → α) (hg : ∀ b m, g { b with names := m } = g b)
    (u : Stage) :
      g ((s'.stages.modify t fun b => { b with names := b.names.release n }).get u) =
        g (s'.stages.get u) := s'.stages.map_get_modify t u fun b => hg b _
  have stack := same StageBuild.stack fun _ _ => rfl
  have knows : ∀ u r, s'.knows u r → { s' with stages := s'.stages.modify t fun b =>
      { b with names := b.names.release n } }.knows u r := by
    refine fun u => knows_mono enters ?_ ?_
    · rw [same StageBuild.groups fun _ _ => rfl]
      exact List.Subset.refl _
    · rw [same StageBuild.propertyNames fun _ _ => rfl]
      exact List.Subset.refl _
  refine ⟨h.enters.trans enters, fun u => ?_, fun ht => ?_, fun u hu' hv => ?_, h.bound, h.asked,
    fun hs u k b hk hb => ?_, fun hs => ?_⟩
  · obtain ⟨used, blocks, open', properties, groups, output⟩ := h.retains u
    refine ⟨fun m hm => still u m ?_ (used m hm), ?_, ?_, ?_, ?_, ?_⟩
    · by_cases he : u = t
      · refine .inl fun hn => ?_
        rw [hn, he, free] at hm
        cases hm
      · exact .inr he
    · rw [same StageBuild.nextBlock fun _ _ => rfl]
      exact blocks
    · rw [stack]
      exact open'
    · rw [same StageBuild.propertyNames fun _ _ => rfl]
      exact properties
    · rw [same StageBuild.groups fun _ _ => rfl]
      exact groups
    · rw [same StageBuild.output fun _ _ => rfl]
      exact output
  · show Adds _ [] _ ((s'.stages.modify t _).get .vertex)
    rw [PerStage.get_modify, if_neg (Ne.symm ht)]
    exact (h.vertex ht).mono (knows .vertex)
  · show ((s'.stages.modify t _).get u).body = _
    rw [PerStage.get_modify, if_neg hu']
    exact h.others u hu' hv
  · obtain ⟨kind, used, below, declared, alone⟩ := h.holding hs u k b hk hb
    refine ⟨kind, still u b.name ?_ used, ?_, ?_, alone⟩
    · by_cases he : u = t
      · exact .inl (hu.1 k b (he ▸ hk) hb)
      · exact .inr he
    · rw [same StageBuild.nextBlock fun _ _ => rfl]
      exact below
    · rw [stack]
      exact declared
  · obtain ⟨told, known, used, alone, apart⟩ := h.logged hs
    refine ⟨told, fun v hv => (known v hv).mono knows, fun v hv u b hk hb =>
      still u b.name ?_ (used v hv u b hk hb), alone, apart⟩
    by_cases he : u = t
    · exact .inl (hu.2 v hv b (he ▸ hk) hb)
    · exact .inr he

/-- The innermost block declares a name, and no node is bound to it yet. -/
structure Ready (s : BuildState) (t : Stage) (n : String) (owner : Option CacheKey) : Prop where
  unbound : s.Unbound t n
  used : (s.stages.get t).names.isUsed n = true
  declared : ∃ block rest, (s.stages.get t).stack = block :: rest ∧
    ∃ st ∈ block.statements, st.binds? = some n ∧ st.owner? = owner

theorem Ready.grows {owner : Option CacheKey} (h : s.Ready t n owner) (hg : s.Grows p t cs s') :
    s'.Ready t n owner := by
  obtain ⟨block, rest, hstack, st, hst, declares⟩ := h.declared
  obtain ⟨new, -, -, stack⟩ := hg.adds
  refine ⟨hg.toSteps.unbound h.unbound h.used, (hg.retains t).used n h.used, ?_⟩
  exact ⟨_, rest, stack.trans (congrArg _ hstack), st, List.mem_append_left _ hst, declares⟩

/-- A node is bound to a name that was free at first and that the innermost block declares by now. -/
theorem Steps.bind {k : CacheKey} {frame : Option FrameId} {c : NodeCache} (h : s.Steps p t s')
    (free : (s.stages.get t).names.isUsed n = false)
    (ready : s'.Ready t n (frame.elim (some k) fun _ => none)) (hs : (s'.stages.get t).Sound cs)
    (hk : k.stage = some t) (kind : ∃ m, p.node k.node = .ok m ∧ m.mayBind = true)
    (hc : ∀ k', c.bound? k' = if k' = k then some ⟨n, (s'.stages.get t).currentBlock, frame⟩
      else s'.cache.bound? k') : s.Steps p t { s' with cache := c } := by
  obtain ⟨block, rest, stack, st, hst, binds, owner⟩ := ready.declared
  have current := currentBlock_of_stack stack
  have bound : ∀ {k' b'}, c.bound? k' = some b' →
      k' = k ∧ b' = ⟨n, (s'.stages.get t).currentBlock, frame⟩ ∨
        k' ≠ k ∧ s'.cache.bound? k' = some b' := by
    intro k' b' hb
    rw [hc] at hb
    split at hb
    · next he => exact .inl ⟨he, (Option.some.inj hb).symm⟩
    · next hne => exact .inr ⟨hne, hb⟩
  have own : ∀ {u}, k.stage = some u → u = t := fun hu => Option.some.inj (hu.symm.trans hk)
  refine ⟨h.enters.trans (.of_eq rfl rfl rfl rfl rfl), h.retains, h.vertex, h.others,
    fun u k' b' hk' hb => ?_, h.asked, fun hs' u k' b' hk' hb => ?_, fun hs' => ?_⟩
  · rcases bound hb with ⟨rfl, rfl⟩ | ⟨-, hb⟩
    · exact .inr (own hk' ▸ free)
    · exact h.bound u k' b' hk' hb
  · rcases bound hb with ⟨rfl, rfl⟩ | ⟨hne, hb⟩
    · obtain rfl := own hk'
      have innermost : block ∈ (s'.stages.get u).stack := stack ▸ .head _
      refine ⟨kind, ready.used, ?_, fun block' hblock same => ?_, fun k'' b'' hk'' hb'' hn => ?_⟩
      · rw [current]
        exact hs.below block innermost
      · have only : block' = block :=
          List.inj_on_of_nodup_map hs.ids hblock innermost (same.trans current)
        exact only ▸ ⟨st, hst, binds, owner⟩
      · rcases bound hb'' with ⟨he, -⟩ | ⟨-, hb''⟩
        · exact he
        · exact absurd hn (ready.unbound.1 k'' b'' hk'' hb'')
    · obtain ⟨kind', used, below, declared, alone⟩ := h.holding hs' u k' b' hk' hb
      refine ⟨kind', used, below, declared, fun k'' b'' hk'' hb'' hn => ?_⟩
      rcases bound hb'' with ⟨rfl, rfl⟩ | ⟨-, hb''⟩
      · obtain rfl := own hk''
        exact absurd hn.symm (ready.unbound.1 k' b' hk' hb)
      · exact alone k'' b'' hk'' hb'' hn
  · obtain ⟨told, known, used, alone, apart⟩ := h.logged hs'
    refine ⟨told, known, used, fun v hv u b hkv hb k' b' hk' hb' hn => ?_, apart⟩
    rcases bound hb' with ⟨rfl, rfl⟩ | ⟨-, hb'⟩
    · obtain rfl := own hk'
      exact absurd hn.symm (ready.unbound.2 v hv b hkv hb)
    · exact alone v hv u b hkv hb k' b' hk' hb' hn

/-- A name that can be used is declared by an open block. -/
theorem Tidy.declared {k : CacheKey} {b : BoundName} (h : s.Tidy p t cs) {u : Stage}
    (hk : k.stage = some u) (hb : s.cache.bound? k = some b)
    (ho : (s.stages.get u).isOpen b.block = true) : b.DeclaredIn k (s.stages.get u).stack := by
  have mem : b.block ∈ (s.stages.get u).openBlocks := StageBuild.isOpen_iff.1 ho
  rw [StageBuild.openBlocks_eq] at mem
  obtain ⟨block, hblock, same⟩ := List.mem_map.1 mem
  exact ⟨block, hblock, same, (h.holding u k b hk hb).declared block hblock same⟩

/-! ### Statements -/

/-- A statement is added that is in order, with the blocks that it holds. -/
theorem Grows.add (h : s.Steps p t s')
    (moves : Moves (boundIn [st]) (s.stages.get t) (s'.stages.get t))
    (stack : (s'.stages.get t).stack = (s.stages.get t).stack)
    (hs : Statement.Scoped (s'.knows t) (s.scope t cs) [st]) :
    s.Grows p t cs { s' with stages := s'.stages.modify t fun b => b.add st } := by
  have add : s'.Steps p t { s' with stages := s'.stages.modify t fun b => b.add st } :=
    .modify (.add _ st)
  refine ⟨h.trans add, ?_⟩
  rw [PerStage.get_modify, if_pos rfl]
  exact .add moves stack (hs.mono (add.knows t) fun _ => .rfl)

/-- A statement is added that declares nothing and holds no blocks. -/
theorem Grows.plain (hn : st.binds? = none) (hb : st.blocks = [])
    (hs : Statement.Scoped (s.knows t) (s.scope t cs) [st]) :
    s.Grows p t cs { s with stages := s.stages.modify t fun b => b.add st } := by
  have none : boundIn [st] = [] := by
    rw [boundIn, collectIn, collect_eq, hn, hb]
    rfl
  have same : s.Grows p t cs s := .refl s
  exact .add same.toSteps (none ▸ .refl _) rfl hs

/-- A block is opened, filled and closed. -/
theorem Hands.of_block (h : { s with stages := s.stages.modify t openBlock }.Grows p t cs s') :
    s.Hands p t cs (s'.stages.get t).innerStatements
      { s' with stages := s'.stages.modify t closeBlock } := by
  have close : s'.Steps p t { s' with stages := s'.stages.modify t closeBlock } :=
    .modify (.closeBlock _)
  have adds := h.adds.mono (close.knows t)
  refine ⟨(Steps.modify (.openBlock _)).trans (h.toSteps.trans close), ?_⟩
  rw [PerStage.get_modify, if_pos rfl] at adds ⊢
  exact .of_openBlock adds

/-- No block is handed over. -/
theorem Hands.refl (s : BuildState) : s.Hands p t cs [] s :=
  ⟨(Grows.refl s : s.Grows p t cs s).toSteps, .nil, .refl _, rfl⟩

/-- A branch is added with the blocks that it holds. -/
theorem Grows.branch {c : Expr} {elseBody : Option (List Statement)} (ht : s.Hands p t cs ss s')
    (he : s'.Hands p t cs (elseBody.getD []) s'') (hc : c.Refers (s.knows t) (s.scope t cs)) :
    s.Grows p t cs { s'' with
      stages := s''.stages.modify t fun b => b.add (.branch c ss elseBody) } := by
  have steps : s.Steps p t s'' := ht.toSteps.trans he.toSteps
  have names : boundIn [.branch c ss elseBody] = boundIn ss ++ boundIn (elseBody.getD []) := by
    rw [← boundIn_append, boundIn, collectIn, collect_eq]
    exact List.append_nil _
  have same : s'.scope t cs = s.scope t cs := by
    unfold scope
    rw [StageBuild.visible_of_stack ht.leaves.stack]
  refine .add steps (names ▸ ht.leaves.moves.trans he.leaves.moves)
    (he.leaves.stack.trans ht.leaves.stack) (.branch ?_ ?_ ?_ .nil)
  · exact hc.mono (steps.knows t) (List.Subset.refl _)
  · exact ht.leaves.refer.mono (he.knows t) fun _ => .rfl
  · exact (show Statement.Scoped _ (s'.scope t cs) _ from he.leaves.refer).mono (fun _ hr => hr)
      fun n => by rw [same]

theorem Tidy.openBlock (h : s.Tidy p t cs) :
    { s with stages := s.stages.modify t StageBuild.openBlock }.Tidy p t cs := by
  have sound := h.sound t
  rw [if_pos rfl] at sound
  refine (Steps.modify (.openBlock _)).tidy h ?_
  rw [PerStage.get_modify, if_pos rfl]
  exact sound.openBlock

/-- A block that was opened declares nothing. -/
theorem Refers.openBlock (p : Plan) (h : s.Refers t cs es) :
    { s with stages := s.stages.modify t StageBuild.openBlock }.Refers t cs es := by
  have steps : s.Steps p t { s with stages := s.stages.modify t StageBuild.openBlock } :=
    .modify (.openBlock _)
  refine fun e he => (h e he).mono (steps.knows t) ?_
  unfold scope
  rw [PerStage.get_modify, if_pos rfl]
  exact List.Subset.refl _

/-- Inside of a loop its counter is in scope. -/
theorem Tidy.enter (h : s.Tidy p t cs) (hc : s.Claims p t cs n s') (hg : s'.Grows p t cs s'') :
    s''.Tidy p t (n :: cs) := by
  have tidy := hg.tidy (hc.toGrows.tidy h)
  have sound := h.sound t
  have sound'' := tidy.sound t
  rw [if_pos rfl] at sound sound''
  obtain ⟨free, used⟩ := hc.moves.fresh n (.head _)
  have outside := sound.notMem free
  have later : ∀ {b : Prop}, (b ∨ (s'.stages.get t).names.isUsed n = false) → b := by
    rintro b (hb | hn)
    · exact hb
    · rw [used] at hn
      cases hn
  have new : n ∉ (s''.stages.get t).visible ++ (cs ++ (s''.stages.get t).propertyNames) := by
    intro hn
    rcases List.mem_append.1 hn with hn | hn
    · have hn := later (hg.adds.mem_visible hn)
      rw [StageBuild.visible_of_stack hc.stack] at hn
      exact outside (List.mem_append_left _ hn)
    rcases List.mem_append.1 hn with hn | hn
    · exact outside (List.mem_append_right _ (List.mem_append_left _ hn))
    · -- the properties that are new have other names
      obtain ⟨more, values, -, -, fresh⟩ := hc.moves.properties
      have hn := later (hg.adds.mem_propertyNames hn)
      rw [StageBuild.propertyNames, values, List.map_append] at hn
      rcases List.mem_append.1 hn with hn | hn
      · exact outside (List.mem_append_right _ (List.mem_append_right _ hn))
      · exact (fresh n hn).2.2 (.head _)
  refine ⟨tidy.named, fun u => ?_, tidy.holding, tidy.logged⟩
  by_cases hu : u = t
  · rw [if_pos hu, hu]
    exact sound''.cons new ((hg.retains t).used n used)
  · have other := tidy.sound u
    rwa [if_neg hu] at other ⊢

/-- A loop is added whose counter was free and is free again. -/
theorem Grows.loop {counter : String} {type : ValueType} {start stop : Expr} {condition : BinaryOp}
    {step : Float} {s₁ s₂ s₃ : BuildState} (hs : s.Tidy p t cs)
    (free : (s.stages.get t).names.isUsed counter = false)
    (h : { s with stages := s.stages.modify t fun b =>
      { b with names := (s.stages.get t).names.reserve counter } }.Grows p t cs s₁)
    (hl : s₁.Hands p t (counter :: cs) ss s₂) (hstart : start.Refers (s₁.knows t) (s₁.scope t cs))
    (hstop : stop.Refers (s₁.knows t) (s₁.scope t cs))
    (hs₃ : s₃ = { s₂ with stages := s₂.stages.modify t fun b =>
      { b with names := b.names.release counter } })
    (hst : st = .loop counter type start condition stop step ss) :
    s.Grows p t cs { s₃ with stages := s₃.stages.modify t fun b => b.add st } := by
  have sound := hs.sound t
  rw [if_pos rfl] at sound
  let s₀ : BuildState := { s with stages := s.stages.modify t fun b =>
    { b with names := (s.stages.get t).names.reserve counter } }
  have claimed : s₀.stages.get t =
      { s.stages.get t with names := (s.stages.get t).names.reserve counter } :=
    (PerStage.get_modify _ _ _ _).trans (if_pos rfl)
  have claim : s.Grows p t cs s₀ := .reserve rfl (fun _ => rfl) fun _ => rfl
  have used : (s₀.stages.get t).names.isUsed counter = true := by
    rw [claimed]
    simp
  have inner : s₀.Steps p t s₂ := h.toSteps.trans hl.toSteps
  have unbound : s₂.Unbound t counter :=
    inner.unbound (show s₀.Unbound t counter from hs.unbound free) used
  have freed : s.Steps p t s₃ := hs₃ ▸ (claim.toSteps.trans inner).release free unbound
  have add : s₃.Steps p t { s₃ with stages := s₃.stages.modify t fun b => b.add st } :=
    .modify (.add _ st)
  have stage : s₃.stages.get t =
      { s₂.stages.get t with names := (s₂.stages.get t).names.release counter } := by
    rw [hs₃, PerStage.get_modify, if_pos rfl]
  -- what was known on the way is known in the end
  have known₂ : ∀ r, s₂.knows t r →
      ({ s₃ with stages := s₃.stages.modify t fun b => b.add st } : BuildState).knows t r := by
    have enters : s₂.Enters p s₃ := hs₃ ▸ .of_eq rfl rfl rfl rfl rfl
    refine fun r hr => add.knows t r (knows_mono enters ?_ ?_ r hr)
    · rw [stage]
      exact List.Subset.refl _
    · rw [stage]
      exact List.Subset.refl _
  have known₁ := fun r hr => known₂ r (hl.knows t r hr)
  refine ⟨freed.trans add, ?_⟩
  rw [PerStage.get_modify, if_pos rfl, stage, hst]
  exact Adds.loop sound free ((claimed ▸ h.adds).mono (hst ▸ known₁))
    (hl.leaves.mono (hst ▸ known₂))
    (hstart.mono (hst ▸ known₁) (List.Subset.refl _))
    (hstop.mono (hst ▸ known₁) (List.Subset.refl _))

/-- A name that was free is declared by the innermost block. -/
structure Introduces (p : Plan) (t : Stage) (cs : List String) (n : String)
    (owner : Option CacheKey)
    (s s' : BuildState) : Prop extends s.Grows p t cs s' where
  free : (s.stages.get t).names.isUsed n = false
  ready : s'.Ready t n owner

/-- A name that was taken is declared. -/
theorem Claims.declare {type : ValueType} {init : Option Expr} {m : Mutability}
    {owner : Option CacheKey} (h : s.Claims p t cs n s') (hs : s.Tidy p t cs)
    (hi : ∀ e, init = some e → s.Refers t cs [e]) :
    s.Introduces p t cs n owner { s' with
      stages := s'.stages.modify t fun b => b.add (.declare n type init m owner) } := by
  have free := (h.moves.fresh n (.head _)).1
  have sound := hs.sound t
  rw [if_pos rfl] at sound
  have fresh : n ∉ s.scope t cs := fun hn => sound.notMem free <|
    (List.mem_append.1 hn).elim (List.mem_append_left _)
      fun hn => List.mem_append_right _ (List.mem_append_left _ hn)
  have inOrder : Statement.Scoped (s'.knows t) (s.scope t cs) [.declare n type init m owner] := by
    refine .declare fresh (fun e he => ?_) .nil
    exact (hi e he e (.head _)).mono (h.knows t) (List.Subset.refl _)
  obtain ⟨block, rest, stack⟩ := List.exists_cons_of_ne_nil (s'.stages.get t).stack_ne_nil
  refine ⟨.add h.toSteps h.moves h.stack inOrder, free, h.unbound, ?_, ?_⟩
  · show ((s'.stages.modify t _).get t).names.isUsed n = true
    rw [PerStage.get_modify, if_pos rfl, (StageBuild.frame_add _ _).1]
    exact (h.moves.fresh n (.head _)).2
  · show ∃ block rest, ((s'.stages.modify t _).get t).stack = block :: rest ∧ _
    rw [PerStage.get_modify, if_pos rfl, StageBuild.stack_add, stack, Block.extend]
    refine ⟨_, rest, rfl, .declare n type init m owner, ?_, rfl, rfl⟩
    exact List.mem_append_right _ (.head _)

/-- A name that is declared can be referred to. -/
theorem Ready.refers {owner : Option CacheKey} (h : s.Ready t n owner) :
    s.Refers t cs [Build.localName n] := by
  obtain ⟨block, rest, stack, st, hst, binds, -⟩ := h.declared
  intro e he
  refine List.mem_singleton.1 he ▸ Expr.refers_local (List.mem_append_left _ ?_)
  unfold StageBuild.visible
  rw [stack, List.flatMap_cons]
  exact List.mem_append_left _ (List.mem_filterMap.2 ⟨st, hst, binds⟩)

/-- A name stays declared. -/
theorem Introduces.trans {owner : Option CacheKey} (h : s.Introduces p t cs n owner s')
    (hg : s'.Grows p t cs s'') : s.Introduces p t cs n owner s'' :=
  ⟨h.toGrows.trans hg, h.free, h.ready.grows hg⟩

/-- What happens first leaves a name free. -/
theorem Introduces.after {owner : Option CacheKey} (h : s'.Introduces p t cs n owner s'')
    (hg : s.Grows p t cs s') : s.Introduces p t cs n owner s'' :=
  ⟨hg.trans h.toGrows, (hg.retains t).free h.free, h.ready⟩

/-- A node is bound to a name that the innermost block declares for it. -/
theorem Introduces.bind {k : CacheKey} {frame : Option FrameId} {c : NodeCache}
    (h : s.Introduces p t cs n (frame.elim (some k) fun _ => none) s') (hs : s.Tidy p t cs)
    (hk : k.stage = some t) (kind : ∃ m, p.node k.node = .ok m ∧ m.mayBind = true)
    (hc : ∀ k', c.bound? k' = if k' = k then some ⟨n, (s'.stages.get t).currentBlock, frame⟩
      else s'.cache.bound? k') : s.Grows p t cs { s' with cache := c } := by
  have sound := (h.toGrows.tidy hs).sound t
  rw [if_pos rfl] at sound
  exact ⟨.bind h.toSteps h.free h.ready sound hk kind hc, h.adds⟩

/-! ### Visits and stages -/

/-- A visit is logged that began in the first state. -/
theorem Grows.visit {v : Visit} (hs : s.Tidy p t cs) (h : s.Grows p t cs s')
    (hk : v.key.stage = some t) (hb : v.bound = s.cache.bound? v.key) (told : v.InScope p)
    (refers : s'.Refers t cs v.code.toList) :
    s.Grows p t cs { s' with visits := v :: s'.visits } := by
  -- the name that the node was bound to is bound for no other node later
  have only : ∀ {u b k b'}, v.key.stage = some u → v.bound = some b → k.stage = some u →
      (s.cache.bound? k = some b' ∨ (s.stages.get u).names.isUsed b'.name = false) →
        b'.name = b.name → k = v.key := by
    intro u b k b' hu hv hk' hor hn
    have holds := hs.holding u v.key b hu (hb ▸ hv)
    rcases hor with hb' | free
    · exact holds.alone k b' hk' hb' hn
    · rw [hn, holds.used] at free
      cases free
  refine ⟨⟨h.enters.trans (.of_eq rfl rfl rfl rfl rfl), h.retains, h.vertex,
    h.others, h.bound,
    fun w hw => ?_, fun hh => (h.holding hh).retain (fun _ => .refl _) fun _ => rfl, fun hl => ?_⟩,
    h.adds⟩
  · rcases List.mem_cons.1 hw with rfl | hw
    · exact .inr fun u b _ hv => .inl (hb ▸ hv)
    · exact h.asked w hw
  · have later := h.logged hl
    have apart : ∀ w ∈ s'.visits, ∀ u b b', v.key.stage = some u → w.key.stage = some u →
        v.bound = some b → w.bound = some b' → b.name = b'.name → v.key = w.key := by
      intro w hw u b b' hu hu' hv hv' hn
      rcases h.asked w hw with old | new
      · exact (hl.alone w old u b' hu' hv' v.key b hu (hb ▸ hv) hn)
      · exact (only hu hv hu' (new u b' hu' hv') hn.symm).symm
    refine ⟨fun w hw => ?_, fun w hw => ?_, fun w hw u b hu hv => ?_,
      fun w hw u b hu hv k b' hk' hb' hn => ?_, fun w hw w' hw' u b b' hu hu' hv hv' hn => ?_⟩
    · rcases List.mem_cons.1 hw with rfl | hw
      · exact told
      · exact later.told w hw
    · rcases List.mem_cons.1 hw with rfl | hw
      · exact ⟨t, hk, fun e he r hr =>
          (refers e (Option.mem_toList.2 he) r hr).imp_right fun ⟨n, _, hn⟩ => ⟨n, hn⟩⟩
      · exact later.known w hw
    · rcases List.mem_cons.1 hw with rfl | hw
      · exact (h.retains u).used _ (hs.holding u w.key b hu (hb ▸ hv)).used
      · exact later.used w hw u b hu hv
    · rcases List.mem_cons.1 hw with rfl | hw
      · exact only hu hv hk' (h.bound u k b' hk' hb') hn
      · exact later.alone w hw u b hu hv k b' hk' hb' hn
    · rcases List.mem_cons.1 hw with rfl | old
      · rcases List.mem_cons.1 hw' with rfl | old'
        · rfl
        · exact apart w' old' u b b' hu hu' hv hv' hn
      · rcases List.mem_cons.1 hw' with rfl | old'
        · exact (apart w old u b' b hu' hu hv' hv hn.symm).symm
        · exact later.apart w old w' old' u b b' hu hu' hv hv' hn

/-- What goes on in the vertex program is aside from another stage. -/
theorem Grows.aside (h : s.Grows p .vertex [] s') (ht : t ≠ .vertex) : s.Grows p t cs s' where
  enters := h.enters
  retains := h.retains
  vertex _ := h.adds
  others u _ hv := h.others u hv hv
  bound := h.bound
  asked := h.asked
  holding := h.holding
  logged := h.logged
  adds := .of_body (h.others t ht ht)

/-- Another stage sees no loops. -/
theorem Tidy.outside (h : s.Tidy p t cs) (u : Stage) : s.Tidy p u [] := by
  refine ⟨h.named, fun v => (h.sound v).sublist ?_, h.holding, h.logged⟩
  rw [ite_self]
  exact List.nil_sublist _

end ShaderGraph.BuildState
