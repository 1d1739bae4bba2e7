import ShaderGraph.Proofs.Entered
import ShaderGraph.Proofs.Numbering

/-!
# The tables of inputs over a run

All that a build does to its inputs keeps to their numbers and groups (`BuildState.Tabulates`), and
a uniform is always read as the same member of the same block (`BuildState.Answered`). So the tables
of a run are numbered and grouped, and all visits at nodes of one uniform are answered alike
(`run_records`).
-/

namespace ShaderGraph

open Build

namespace BuildState

variable {p : Plan} {s s' s'' : BuildState}

/-- The tables of inputs stay numbered and grouped between two states; no node is visited. -/
structure Tabulates (s s' : BuildState) : Prop where
  numbered : s.inputs.Numbered → s'.inputs.Numbered
  grouped : s.inputs.Grouped → s'.inputs.Grouped
  timed : ∀ key, s.inputs.Timed key → s'.inputs.Timed key
  visits : s'.visits = s.visits
  /-- The stages declare the blocks that they did. -/
  groups : ∀ t, (s.stages.get t).groups ⊆ (s'.stages.get t).groups

namespace Tabulates

theorem of_inputs (h : s'.inputs = s.inputs) : s.Tabulates s' where
  numbered hn := h ▸ hn
  grouped hg := h ▸ hg
  timed _ ht := h ▸ ht
  visits := congrArg InputTables.visits h
  groups t := by
    have same : (s'.stages.get t).groups = (s.stages.get t).groups :=
      congrArg (fun i : InputTables => (i.lists t).groups) h
    rw [same]
    exact List.Subset.refl _

theorem refl (s : BuildState) : s.Tabulates s := of_inputs rfl

theorem trans (h : s.Tabulates s') (h' : s'.Tabulates s'') : s.Tabulates s'' where
  numbered := h'.numbered ∘ h.numbered
  grouped := h'.grouped ∘ h.grouped
  timed key := h'.timed key ∘ h.timed key
  visits := h'.visits.trans h.visits
  groups t := List.Subset.trans (h.groups t) (h'.groups t)

end Tabulates

/-- A visit at a uniform node was answered with the member of the uniform. -/
def Answered (p : Plan) (s : BuildState) (v : Visit) : Prop :=
  ∀ name type group update value, p.node v.key.node = .ok (.uniform name type group update value) →
    ∃ block inst member, s.namesOf (.group (group.getD update.defaultGroup)) = [block, inst] ∧
      s.namesOf (.member ⟨name, group.getD update.defaultGroup⟩) = [member] ∧
        v.code = some (.reference (.uniform inst member))

theorem Answered.enters {v : Visit} (hv : s.Answered p v) (h : s.Enters p s') :
    s'.Answered p v := by
  intro name type group update value hn
  obtain ⟨block, inst, member, hgroup, hmember, code⟩ := hv name type group update value hn
  refine ⟨block, inst, member, ?_, ?_, code⟩
  · exact (h.keep (hgroup ▸ List.cons_ne_nil _ _)).trans hgroup
  · exact (h.keep (hmember ▸ List.cons_ne_nil _ _)).trans hmember

/-- Inputs may be entered and used between two states, and nodes visited. -/
structure Records (p : Plan) (s s' : BuildState) : Prop where
  enters : s.Enters p s'
  numbered : s.inputs.Numbered → s'.inputs.Numbered
  grouped : s.inputs.Grouped → s'.inputs.Grouped
  timed : ∀ key, s.inputs.Timed key → s'.inputs.Timed key
  answered : (∀ v ∈ s.visits, s.Answered p v) → ∀ v ∈ s'.visits, s'.Answered p v

namespace Records

theorem of_tabulates (h : s.Enters p s') (ht : s.Tabulates s') : s.Records p s' :=
  ⟨h, ht.numbered, ht.grouped, ht.timed, fun ha v hv => (ha v (ht.visits ▸ hv)).enters h⟩

theorem refl (s : BuildState) : s.Records p s := of_tabulates (.refl s) (.refl s)

theorem trans (h : s.Records p s') (h' : s'.Records p s'') : s.Records p s'' where
  enters := h.enters.trans h'.enters
  numbered := h'.numbered ∘ h.numbered
  grouped := h'.grouped ∘ h.grouped
  timed key := h'.timed key ∘ h.timed key
  answered := h'.answered ∘ h.answered

end Records

end BuildState

/-- What steps keep to that enter and use inputs. -/
def Law.tabulating : Law where
  inv _ _ := True
  rel _ := BuildState.Tabulates
  ends _ := True
  refl := .refl
  trans := .trans
  mono _ _ := trivial
  loops _ _ := trivial
  ordinary _ := trivial
  located _ := trivial

/-- What a whole build does to its inputs keeps to. -/
def Law.recording (p : Plan) : Law where
  inv env s := env.plan = p ∧ s.Named p ∧ s.inputs.Numbered
  rel _ := BuildState.Records p
  ends _ := True
  refl := .refl
  trans := .trans
  mono hi hr := ⟨hi.1, hr.enters.named hi.2.1, hr.numbered hi.2.2⟩
  loops _ hi := hi
  ordinary _ := trivial
  located _ := trivial

namespace Build

open Law BuildState InputTables

variable {p : Plan} {env : Env} {s s' : BuildState} {α : Type} {group name : String}
  {key : UniformKey}

/-! ### Uniforms -/

theorem tabulating_ofInputs {step : Build α} (h : Law.inputs.Keeps env step) :
    Law.tabulating.Keeps env step :=
  fun s _ => (h s trivial).imp fun _ _ hr => .of_inputs hr

/-- A group is entered without members, a cadence and a number, or it is there. -/
theorem groupEntry_tabulates :
    Meets (groupEntry group) env s (fun _ => True) fun g s' =>
      s.Tabulates s' ∧ s'.groups.get? group = some g ∧ s'.uniforms = s.uniforms := by
  unfold groupEntry
  rw [meets_bind, meets_get]
  cases hg : s.groups.get? group with
  | some g => exact ⟨.refl s, hg, rfl⟩
  | none =>
    refine ⟨⟨fun h => ?_, fun h => ?_, fun key h => ?_, rfl, fun _ => .refl _⟩,
      (OrderedMap.get?_put _ _ _ _).trans (if_pos rfl), rfl⟩
    · refine Numbered.putGroup h (fun g' hg' => ?_) fun _ => rfl
      cases hg.symm.trans hg'
    · exact h.enterGroup hg rfl
    · refine h.putGroup fun g' hg' _ => ?_
      cases hg.symm.trans hg'

/-- The entry of a group is replaced by one with the same members and number, which may get a
cadence. -/
theorem tabulates_putGroup {g g' : GroupEntry} (hg : s.groups.get? group = some g)
    (hm : g'.members = g.members) (hb : g'.binding = g.binding)
    (hc : g.cadence ≠ none → g'.cadence = g.cadence) :
    s.Tabulates { s with groups := s.groups.put group g' } where
  numbered h := by
    refine Numbered.putGroup h (fun g'' hg'' => ?_) fun hn => nomatch hn.symm.trans hg
    cases hg.symm.trans hg''
    exact hb
  grouped h := h.putGroup hg hm
  timed key h := by
    refine h.putGroup fun g'' hg'' hn => ?_
    cases hg.symm.trans hg''
    exact hc hn
  visits := rfl
  groups _ := .refl _

/-- A uniform is entered as the last member of its group, or it is there. Its own cadence may be
another than that of the group still. -/
theorem uniformEntry_tabulates (type : ValueType) (update : Cadence) (value : List Float32)
    (id : NodeId) :
    Meets (uniformEntry key type update value id) env s (fun _ => True) fun _ s' =>
      (s.inputs.Numbered → s'.inputs.Numbered) ∧ (s.inputs.Grouped → s'.inputs.Grouped) ∧
        s'.visits = s.visits ∧ (∀ t, (s.stages.get t).groups ⊆ (s'.stages.get t).groups) ∧
          ∀ k, s.inputs.Timed k → s'.inputs.Timed k ∨
            k = key ∧ ∀ u, s'.uniforms.get? key = some u → u.update = update := by
  unfold uniformEntry
  rw [meets_bind, meets_get]
  cases hu : s.uniforms.get? key with
  | some u =>
    refine meets_check fun _ => ⟨fun h => h, fun h => h, rfl, ?_⟩
    exact ⟨fun _ => .refl _, fun _ h => .inl h⟩
  | none =>
    dsimp only
    rw [meets_bind]
    refine groupEntry_tabulates.imp ?_
    rintro g s₁ ⟨tabulates, hg, same⟩
    rw [meets_bind]
    refine meets_claimGlobal fun member _ => ?_
    have new : s₁.uniforms.get? key = none := same ▸ hu
    refine ⟨fun h => ?_, fun h => ?_, tabulates.visits, tabulates.groups, fun k h => ?_⟩
    · let g' : GroupEntry := { g with members := g.members ++ [(member, type)] }
      have put : ({ s₁ with groups := s₁.groups.put key.group g' } : BuildState).inputs.Numbered :=
        Numbered.putGroup (tabulates.numbered h) (fun g' hg' => by cases hg.symm.trans hg'; rfl)
          fun hn => nomatch hn.symm.trans hg
      exact { put with }
    · exact (tabulates.grouped h).enterUniform new hg rfl
    · by_cases hk : k = key
      · refine .inr ⟨hk, fun u hu => ?_⟩
        rcases OrderedMap.get?_of_put hu with ⟨-, rfl⟩ | ⟨hne, -⟩
        · rfl
        · exact absurd rfl hne
      · have put : ({ s₁ with
            groups := s₁.groups.put key.group { g with members := g.members ++ [(member, type)] } } :
              BuildState).inputs.Timed k :=
          (tabulates.timed k h).putGroup fun g' hg' _ => by cases hg.symm.trans hg'; rfl
        exact .inl (put.putUniform hk)

/-- The group of a uniform that is refreshed gets the cadence of the uniform, or has it. -/
theorem scheduleUniform_tabulates (update : Cadence) (id : NodeId) :
    Meets (scheduleUniform key update id) env s (fun _ => True) fun _ s' =>
      s.Tabulates s' ∧ s'.uniforms = s.uniforms ∧
        (update ≠ .none → ∃ g, s'.groups.get? key.group = some g ∧ g.cadence = some update) := by
  unfold scheduleUniform
  refine (meets_ite _ _ _).2 ⟨fun h => ⟨.refl s, rfl, absurd h⟩, fun _ => ?_⟩
  show Meets (groupEntry key.group >>= _) env s _ _
  rw [meets_bind]
  refine groupEntry_tabulates.imp ?_
  rintro g s₁ ⟨tabulates, hg, same⟩
  cases hc : g.cadence with
  | some existing =>
    refine meets_check fun he => ?_
    refine ⟨tabulates.trans (.of_inputs rfl), same, fun _ => ⟨g, hg, ?_⟩⟩
    rw [hc, not_not.1 he]
  | none =>
    let g' : GroupEntry := { g with cadence := some update }
    have put : s₁.Tabulates { s₁ with groups := s₁.groups.put key.group g' } :=
      tabulates_putGroup hg rfl rfl (absurd hc)
    refine ⟨(tabulates.trans put).trans (.of_inputs rfl), same, fun _ => ?_⟩
    exact ⟨_, (OrderedMap.get?_put _ _ _ _).trans (if_pos rfl), rfl⟩

theorem registerUniform_tabulates (id : NodeId) (type : ValueType) (group : Option String)
    (update : Cadence) (value : List Float32) :
    Law.tabulating.Keeps env (registerUniform id name type group update value) := by
  intro s _
  unfold registerUniform
  refine meets_check fun _ => ?_
  rw [meets_bind]
  refine (uniformEntry_tabulates type update value id).imp ?_
  rintro u s₁ ⟨numbered, grouped, visits, groups, timed⟩
  rw [meets_bind]
  refine (scheduleUniform_tabulates update id).imp ?_
  rintro _ s₂ ⟨tabulates, same, scheduled⟩
  refine ⟨tabulates.numbered ∘ numbered, tabulates.grouped ∘ grouped, fun k h => ?_,
    tabulates.visits.trans visits, fun t => List.Subset.trans (groups t) (tabulates.groups t)⟩
  rcases timed k h with h | ⟨rfl, own⟩
  · exact tabulates.timed k h
  · intro u hu hn
    have hupdate := own u (same ▸ hu)
    exact hupdate ▸ scheduled (hupdate ▸ hn)

theorem groups_modify {t : Stage} {f : StageBuild → StageBuild} (hf : ∀ b, b.groups ⊆ (f b).groups)
    (u : Stage) : (s.stages.get u).groups ⊆ ((s.stages.modify t f).get u).groups := by
  rw [PerStage.get_modify]
  split
  · exact hf _
  · exact .refl _

/-- A stage lists an input that it uses. -/
theorem tabulates_list {t : Stage} {f : StageBuild → StageBuild} (hf : ∀ b, b.groups ⊆ (f b).groups)
    (h : s.inputs.Numbered → { s with stages := s.stages.modify t f }.inputs.Numbered) :
    s.Tabulates { s with stages := s.stages.modify t f } :=
  ⟨h, fun hg => { hg with }, fun _ ht => ht, rfl, groups_modify hf⟩

theorem useUniform_tabulates (group : String) (u : UniformEntry) :
    Law.tabulating.Keeps env (useUniform group u) := by
  intro s _
  unfold useUniform
  rw [meets_bind]
  refine groupEntry_tabulates.imp ?_
  rintro g s₁ ⟨tabulates, hg, -⟩
  have declared : ∀ b : StageBuild, b.groups ⊆ appendNew b.groups group :=
    fun b _ h => mem_appendNew.2 (.inl h)
  refine (meets_ite _ _ _).2 ⟨fun hn => ?_, fun hn => ?_⟩
  · -- the group gets the next number first
    have hn : g.binding = none := Option.isNone_iff_eq_none.1 hn
    let g' : GroupEntry := { g with binding := some s₁.nextBinding }
    let put : BuildState := { s₁ with groups := s₁.groups.put group g' }
    let bound : BuildState := { put with nextBinding := s₁.nextBinding + 1 }
    have found : bound.groups.get? group = some g' :=
      (OrderedMap.get?_put _ _ _ _).trans (if_pos rfl)
    have bind : s₁.Tabulates bound := by
      refine ⟨fun h => Numbered.bindGroup h hg hn, fun h => ?_, fun key h => ?_, rfl,
        fun _ => .refl _⟩
      · have grouped : put.inputs.Grouped := h.putGroup hg rfl
        exact { grouped with }
      · have timed : put.inputs.Timed key :=
          h.putGroup fun g' hg' _ => by cases hg.symm.trans hg'; rfl
        exact timed
    have list := tabulates_list (s := bound) (t := env.stage) declared fun h =>
      Numbered.listGroup h found rfl
    exact (tabulates.trans bind).trans list
  · have hn : g.binding.isSome := by simpa [Option.isSome_iff_ne_none] using hn
    exact tabulates.trans (tabulates_list declared fun h => Numbered.listGroup h hg hn)

/-! ### Textures, storage buffers and attributes -/

/-- What leaves the uniforms and their groups alone. -/
theorem tabulates_of_numbered (h : s.inputs.Numbered → s'.inputs.Numbered)
    (hu : s'.uniforms = s.uniforms) (hg : s'.groups = s.groups) (hv : s'.visits = s.visits)
    (hl : ∀ t, (s.stages.get t).groups ⊆ (s'.stages.get t).groups) : s.Tabulates s' :=
  ⟨h, fun hs => hs.of_eq hu hg, fun _ ht => ht.of_eq hu hg, hv, hl⟩

theorem registerTexture_tabulates :
    Meets (registerTexture name) env s (fun _ => True) fun t s' =>
      s.Tabulates s' ∧ s'.textures.get? name = some t := by
  unfold registerTexture
  rw [meets_bind, meets_get]
  cases ht : s.textures.get? name with
  | some t => exact ⟨.refl s, ht⟩
  | none =>
    refine ⟨tabulates_of_numbered (fun h => ?_) rfl rfl rfl fun _ => .refl _,
      (OrderedMap.get?_put _ _ _ _).trans (if_pos rfl)⟩
    exact { Numbered.enterTexture h ht rfl with }

theorem useTexture_tabulates (name : String) : Law.tabulating.Keeps env (useTexture name) := by
  intro s _
  unfold useTexture
  rw [meets_bind]
  refine registerTexture_tabulates.imp ?_
  rintro t s₁ ⟨tabulates, ht⟩
  refine (meets_ite _ _ _).2 ⟨fun hn => ?_, fun hn => ?_⟩
  · have hn : t.binding = none := Option.isNone_iff_eq_none.1 hn
    refine tabulates.trans (tabulates_of_numbered (fun h => ?_) rfl rfl rfl
      (groups_modify fun _ => .refl _))
    exact Numbered.listTexture (Numbered.bindTexture h ht hn)
      ((OrderedMap.get?_put _ _ _ _).trans (if_pos rfl)) rfl
  · have hn : t.binding.isSome := by simpa [Option.isSome_iff_ne_none] using hn
    exact tabulates.trans (tabulates_of_numbered (fun h => Numbered.listTexture h ht hn) rfl rfl rfl
      (groups_modify fun _ => .refl _))

theorem registerStorage_tabulates (element : ValueType) (count : Option UInt32) (access : Access) :
    Law.tabulating.Keeps env (registerStorage name element count access) := by
  intro s _
  unfold registerStorage
  rw [meets_bind, meets_get]
  cases hb : s.storage.get? name with
  | some b =>
    refine meets_check fun _ => ?_
    refine tabulates_of_numbered (fun h => ?_) rfl rfl rfl fun _ => .refl _
    refine Numbered.putStorage h (fun b' hb' => ?_) fun hn => nomatch hn.symm.trans hb
    cases hb.symm.trans hb'
    split <;> rfl
  | none =>
    refine meets_check fun _ => ?_
    refine tabulates_of_numbered (fun h => ?_) rfl rfl rfl fun _ => .refl _
    have put : ∀ b : StorageEntry, b.binding = none →
        { s with storage := s.storage.put name b }.inputs.Numbered := fun b hn =>
      Numbered.putStorage h (fun b' hb' => nomatch hb.symm.trans hb') fun _ => hn
    exact { put _ rfl with }

theorem useStorage_tabulates {b : StorageEntry} (hb : s.storage.get? name = some b) :
    Meets (useStorage name b) env s (fun _ => True) fun _ s' => s.Tabulates s' := by
  have declare : ∀ {s : BuildState} {b' : StorageEntry}, s.storage.get? name = some b' →
      b'.binding.isSome → Meets (do
        markType b.element
        modifyHere fun h => { h with storage := appendNew h.storage name }
        return Expr.reference (.storage b.name)) env s (fun _ => True) fun _ s' =>
          s.Tabulates s' := by
    intro s b' hb' hn
    rw [meets_bind]
    refine (markType_inputs b.element s trivial).imp fun _ s₁ same => ?_
    have storage : s₁.storage = s.storage := congrArg InputTables.storage same
    have found : s₁.storage.get? name = some b' := storage ▸ hb'
    exact (Tabulates.of_inputs same).trans
      (tabulates_of_numbered (fun h => Numbered.listStorage h found hn) rfl rfl rfl
        (groups_modify fun _ => .refl _))
  unfold useStorage
  refine (meets_ite _ _ _).2 ⟨fun hn => ?_, fun hn => ?_⟩
  · have hn : b.binding = none := Option.isNone_iff_eq_none.1 hn
    let bound : BuildState := { s with
      nextBinding := s.nextBinding + 1
      storage := s.storage.put name { b with binding := some s.nextBinding } }
    have bind : s.Tabulates bound :=
      tabulates_of_numbered (fun h => Numbered.bindStorage h hb hn) rfl rfl rfl fun _ => .refl _
    have used := declare (s := bound)
      ((OrderedMap.get?_put _ _ _ _).trans (if_pos rfl)) rfl
    exact used.imp fun _ _ h => bind.trans h
  · exact declare hb (by simpa [Option.isSome_iff_ne_none] using hn)

theorem registerAttribute_tabulates (explicit : Option ValueType) :
    Meets (registerAttribute name explicit) env s (fun _ => True) fun a s' =>
      s.Tabulates s' ∧ s'.attributes.get? name = some a := by
  refine meets_registerAttribute (fun a ha => ⟨.refl s, ha⟩) fun type emitted ha _ => ?_
  refine ⟨tabulates_of_numbered (fun h => ?_) rfl rfl rfl fun _ => .refl _,
    (OrderedMap.get?_put _ _ _ _).trans (if_pos rfl)⟩
  exact { Numbered.enterAttribute h ha rfl with }

theorem useAttribute_tabulates (explicit : Option ValueType) (he : env.stage = .vertex) :
    Law.tabulating.Keeps env (useAttribute name explicit) := by
  intro s _
  unfold useAttribute
  rw [meets_bind]
  refine (registerAttribute_tabulates explicit).imp ?_
  rintro a s₁ ⟨tabulates, ha⟩
  refine (meets_ite _ _ _).2 ⟨fun hn => ?_, fun hn => ?_⟩
  · have hn : a.location = none := Option.isNone_iff_eq_none.1 hn
    refine tabulates.trans (tabulates_of_numbered (fun h => ?_) rfl rfl rfl
      (groups_modify fun _ => .refl _))
    have located := Numbered.locateAttribute h ha hn
    rw [← he] at located
    exact located
  · have hn : a.location.isSome := by simpa [Option.isSome_iff_ne_none] using hn
    exact tabulates.trans
      (tabulates_of_numbered (fun h => Numbered.listAttribute h ha hn) rfl rfl rfl
        (groups_modify fun _ => .refl _))

/-! ### Varyings -/

variable {id source : NodeId} {wanted : Option String} {interpolation : Interpolation}
  {sampling : Option Sampling} {g : Generator}

/-- Whole numbers are not interpolated, whatever is asked for. -/
theorem interpolationFor_idem (t : ValueType) (i : Interpolation) :
    interpolationFor t (interpolationFor t i) = interpolationFor t i := by
  unfold interpolationFor
  cases t.scalarKind with
  | none => rfl
  | some kind => cases kind <;> rfl

/-- A varying is entered without a location, or it is there. -/
theorem registerVarying_tabulates :
    Meets (registerVarying id source wanted interpolation sampling) env s
      (fun _ => True) fun v s' =>
      s.Tabulates s' ∧ s'.varyings.get? id = some v := by
  unfold registerVarying
  rw [meets_bind, meets_get]
  cases hv : s.varyings.get? id with
  | some v => exact ⟨.refl s, hv⟩
  | none =>
    refine meets_enterVarying ((typeOf_inputs source s trivial).imp fun type s₁ same => ?_)
    have varyings : s₁.varyings = s.varyings := congrArg InputTables.varyings same
    refine meets_claimVarying fun emitted counter _ => ?_
    refine ⟨(Tabulates.of_inputs same).trans
      (tabulates_of_numbered (fun h => ?_) rfl rfl rfl fun _ => .refl _),
      (OrderedMap.get?_put _ _ _ _).trans (if_pos rfl)⟩
    have entered := Numbered.enterVarying h (varyings ▸ hv)
      (v := ⟨emitted, type, source, interpolationFor type interpolation, sampling, none⟩) rfl
      (interpolationFor_idem type interpolation)
    exact { entered with }

/-- A varying that the vertex program writes and declares has its location. -/
theorem locateVarying_tabulates {v w : VaryingEntry} (hw : s.varyings.get? id = some w)
    (hf : interpolationFor v.type v.interpolation = v.interpolation) :
    Meets (locateVarying id v) env { s with stages := s.stages.modify .vertex fun b =>
        { b with varyings := appendNew b.varyings id } } (fun _ => True) fun _ s' =>
      s.Tabulates s' ∧ isWritten s' id = true := by
  unfold locateVarying
  rw [meets_modify]
  have written : isWritten { s with stages := s.stages.modify .vertex fun b =>
      { b with varyings := appendNew b.varyings id } } id = w.location.isSome := by
    unfold isWritten
    rw [hw]
    rfl
  rw [written]
  by_cases hn : w.location.isSome
  · rw [if_pos hn]
    refine ⟨tabulates_of_numbered (fun h => Numbered.listVarying h hw hn) rfl rfl rfl ?_,
      written.trans hn⟩
    exact groups_modify fun _ => .refl _
  · rw [if_neg hn]
    have hn : w.location = none := by simpa using hn
    refine ⟨tabulates_of_numbered (fun h => Numbered.locateVarying h hw hn hf) rfl rfl rfl
      (groups_modify fun _ => .refl _), ?_⟩
    unfold isWritten
    rw [OrderedMap.get?_put, if_pos rfl]
    rfl

theorem recording_ofInputs : (Law.recording p).OfInputs p where
  ends _ := trivial
  plan hi := hi.1
  around hi hp := ⟨hp.trans hi.1, hi.2⟩
  rel h hi := .of_tabulates h (.of_inputs hi)
  any h := h
  all h := h

/-- The entry of a varying is known, and the vertex program writes the varying. -/
theorem writeVarying_records (hg : (Law.recording p).Runs g) {v : VaryingEntry}
    (hi : (Law.recording p).inv env s) (hv : s.varyings.get? id = some v)
    (hn : p.node id = .ok (.varying v.source wanted interpolation sampling)) :
    Meets (writeVarying g id v) env s (fun _ => True) fun _ s' =>
      s.Records p s' ∧ isWritten s' id = true := by
  unfold writeVarying
  refine (meets_ite _ _ _).2 ⟨fun hw => ⟨.refl s, ?_⟩, fun _ => ?_⟩
  · unfold isWritten
    rw [hv]
    exact hw
  have around : (Law.recording p).inv (within env .vertex) s := by
    refine recording_ofInputs.around hi ?_
    unfold within
    split <;> rfl
  show Meets (inStage .vertex _ >>= _) env s _ _
  rw [meets_bind, meets_inStage, meets_bind]
  have serves : (Law.recording p).Serves (within env .vertex) g v.source :=
    hg.serves recording_ofInputs.unscoped.toIndifferent
  refine (serves.value v.type s around).imp fun e s₁ records => ?_
  rw [meets_bind, addStatement, meets_modifyHere, meets_modifyHere, stage_within]
  -- the assignment is no input; the mark and the location come together
  let assigned : BuildState :=
    { s₁ with
      stages := s₁.stages.modify .vertex fun b =>
        b.add (.assign (.reference (.varying .vertex v.name)) e) }
  let marked : BuildState := { assigned with stages := assigned.stages.modify .vertex fun b =>
    { b with varyings := appendNew b.varyings id } }
  have assign : s₁.Records p assigned := .of_tabulates (.of_eq rfl rfl rfl rfl rfl)
    (.of_inputs (inputs_modify s₁ .vertex fun b => b.inputs_add _))
  have mark : assigned.Enters p marked := .of_eq rfl rfl rfl rfl rfl
  have names : s.namesOf (.varying id) = [v.name] := by rw [namesOf, hv, Option.elim]
  have kept := (records.enters.trans (assign.enters.trans mark)).keep (names ▸ List.cons_ne_nil _ _)
  have listing : Meets (locateVarying id v) env marked (fun _ => True)
      fun _ s' => marked.Lists p s' :=
    locateVarying_listing hn (kept.trans names)
  obtain ⟨w, hw⟩ : ∃ w, assigned.varyings.get? id = some w := by
    have entered := kept.trans names
    rw [namesOf] at entered
    cases hw : assigned.varyings.get? id with
    | none =>
      rw [show marked.varyings = assigned.varyings from rfl, hw] at entered
      cases entered
    | some w => exact ⟨w, rfl⟩
  refine (listing.and (locateVarying_tabulates hw (hi.2.2.flat id v hv))).imp ?_
  rintro _ s' ⟨lists, tabulates, written⟩
  exact ⟨(records.trans assign).trans
    (.of_tabulates (mark.trans lists.toEnters) tabulates), written⟩

theorem buildVarying_records (hg : (Law.recording p).Runs g)
    (hn : p.node id = .ok (.varying source wanted interpolation sampling)) :
    (Law.recording p).Keeps env (buildVarying g id source wanted interpolation sampling) := by
  refine .bind .stage fun t => .when (fun _ => .fail rfl) fun _ => ?_
  intro s hi
  rw [meets_bind]
  have listing := registerVarying_listing hi.1 hn hi.2.1
  refine (listing.and registerVarying_tabulates).imp ?_
  rintro v s₁ ⟨⟨lists, rfl, -⟩, tabulates, hv⟩
  have entered : (Law.recording p).rel [] s s₁ := .of_tabulates lists.toEnters tabulates
  have hi' := (Law.recording p).mono hi entered
  rw [meets_bind]
  refine (writeVarying_records hg hi' hv hn).imp ?_
  rintro _ s₂ ⟨written, located⟩
  obtain ⟨w, hw, hl⟩ : ∃ w, s₂.varyings.get? id = some w ∧ w.location.isSome := by
    unfold isWritten at located
    cases hw : s₂.varyings.get? id with
    | none =>
      rw [hw] at located
      cases located
    | some w => exact ⟨w, rfl, by rwa [hw] at located⟩
  have done := entered.trans written
  refine (meets_ite _ _ _).2 ⟨fun _ => ?_, fun _ => done⟩
  exact done.trans (.of_tabulates (.of_eq rfl rfl rfl rfl rfl)
    (tabulates_of_numbered (fun h => Numbered.listVarying h hw hl) rfl rfl rfl
      (groups_modify fun _ => .refl _)))

/-! ### Runs -/

theorem recording_ofListing {step : Build α} (h : env.plan = p → (Law.listing p).Keeps env step)
    (ht : Law.tabulating.Keeps env step) : (Law.recording p).Keeps env step :=
  fun s hi => ((h hi.1 s hi.1).and (ht s trivial)).imp fun _ _ hr =>
    .of_tabulates hr.1.toEnters hr.2

theorem recording_closed : (Law.recording p).Closed :=
  recording_ofInputs.closed
    (fun _ id name type group update value => fun s hi =>
      ((registerUniform_listing (s := s) id name type group update value hi.1).and
        (registerUniform_tabulates id type group update value s trivial)).imp
          fun _ _ hr => .of_tabulates hr.1.1.toEnters hr.2)
    (fun _ group u => recording_ofListing (fun _ => useUniform_listing group u)
      (useUniform_tabulates group u))
    (fun _ name _ _ => ((registerTexture_listing name).and registerTexture_tabulates).imp
      fun _ _ hr => .of_tabulates hr.1.1.toEnters hr.2.1)
    (fun _ name => recording_ofListing (fun _ => useTexture_listing name)
      (useTexture_tabulates name))
    (fun _ s name element count access _ =>
      ((registerStorage_listing name element count access).and
        (registerStorage_tabulates element count access s trivial)).imp
          fun _ _ hr => .of_tabulates hr.1.1.toEnters hr.2)
    (fun _ _ _ _ hi hb => ((useStorage_listing hi.1 hb).and (useStorage_tabulates hb)).imp
      fun _ _ hr => .of_tabulates hr.1.toEnters hr.2)
    (fun _ name type _ _ => ((registerAttribute_listing name type).and
      (registerAttribute_tabulates type)).imp fun _ _ hr => .of_tabulates hr.1.1.toEnters hr.2.1)
    (fun _ name type he => recording_ofListing (fun _ => useAttribute_listing name type)
      (useAttribute_tabulates type he))

/-- A uniform is read as its member. -/
theorem generateUniform_answers (id : NodeId) (type : ValueType) (group : Option String)
    (update : Cadence) (value : List Float32) (hp : env.plan = p) :
    Meets (generateNode g id (.uniform name type group update value)) env s (fun _ => True)
      fun code s' => ∃ block inst member,
        s'.namesOf (.group (group.getD update.defaultGroup)) = [block, inst] ∧
          s'.namesOf (.member ⟨name, group.getD update.defaultGroup⟩) = [member] ∧
            code = some (.reference (.uniform inst member)) := by
  rw [generateNode, meets_bind]
  refine (registerUniform_listing id name type group update value hp).imp ?_
  rintro ⟨key, u⟩ s₁ ⟨-, rfl, member⟩
  rw [meets_map]
  refine (useUniform_entry (p := p) _ u).imp ?_
  rintro e s₂ ⟨lists, block, inst, rfl, names⟩
  exact ⟨block, inst, u.member, names,
    (lists.keep (member ▸ List.cons_ne_nil _ _)).trans member, rfl⟩

/-- The visit at a node is answered like all visits at nodes of its uniform. -/
theorem generateNode_records (hg : (Law.recording p).Runs g) {n : Node}
    (hi : (Law.recording p).inv env s) (hn : env.plan.node id = .ok n) :
    Meets (generateNode g id n) env s (fun _ => True) fun code s' =>
      s.Records p { s' with visits := visitAt env s id code :: s'.visits } := by
  have keeps : (Law.recording p).Keeps env (generateNode g id n) := by
    refine recording_ofInputs.generateNode recording_closed hg hn ?_
    rintro source wanted interpolation sampling rfl
    exact buildVarying_records hg (hi.1 ▸ hn)
  have answers : Meets (generateNode g id n) env s (fun _ => True) fun code s' =>
      s'.Answered p (visitAt env s id code) := by
    cases n with
    | uniform name type group update value =>
      refine (generateUniform_answers id type group update value hi.1).imp fun code s' h => ?_
      intro name' type' group' update' value' hn'
      cases (hi.1 ▸ hn).symm.trans hn'
      exact h
    | _ =>
      refine (meets_true _).imp fun code s' _ => ?_
      intro name' type' group' update' value' hn'
      cases (hi.1 ▸ hn).symm.trans hn'
  refine ((keeps s hi).and answers).imp ?_
  rintro code s' ⟨records, answered⟩
  have logged : s'.Enters p { s' with visits := visitAt env s id code :: s'.visits } :=
    .of_eq rfl rfl rfl rfl rfl
  refine ⟨records.enters.trans logged, fun h => { records.numbered h with },
    fun h => (records.grouped h).of_eq rfl rfl, fun key h => (records.timed key h).of_eq rfl rfl,
    fun ha v hv => ?_⟩
  rcases List.mem_cons.1 hv with rfl | hv
  · exact answered.enters logged
  · exact (records.answered ha v hv).enters logged

theorem generator_records (fuel : Nat) : (Law.recording p).Runs (generator fuel) := by
  refine generator_runs (fun _ => recording_ofInputs.unscoped) (fun _ => recording_closed.toPlain)
    (fun _ fuel id env s => (meets_true _).imp fun _ _ _ => trivial) ?_ fuel .vertex
  intro _ depth env s id n hg hi hn
  exact generateNode_records (hg .vertex) hi hn

/-- What a run records of its inputs. -/
theorem run_records {rs : List (Stage × NodeId)} (h : run p rs = .ok s) :
    (BuildState.start p).Records p s := by
  refine recording_ofInputs.run_keeps recording_closed ?_ generator_records (fun t => ?_) h
  · intro env id source wanted interpolation sampling hn s hi
    refine ((registerVarying_listing hi.1 hn hi.2.1).and registerVarying_tabulates).imp ?_
    rintro v s' ⟨⟨lists, -⟩, tabulates, -⟩
    exact .of_tabulates lists.toEnters tabulates
  · exact ⟨rfl, named_start p, numbered_start p⟩

end Build

end ShaderGraph
