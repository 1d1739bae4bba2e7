import ShaderGraph.Proofs.Items
import ShaderGraph.Proofs.Typing

/-!
# How items are entered

The steps that enter items and use them keep to the lists of items: uniforms and their groups,
textures, storage buffers and attributes, native functions, and varyings. Where a step hands over
the entry of an item, the entry is the one of the table.
-/

namespace ShaderGraph.Build

open Law BuildState

variable {p : Plan} {env : Env} {s s' : BuildState} {ends : Failure → Prop}

/-! ### Steps that enter nothing -/

theorem isUsed_reserve_of_isUsed {t : NameTable} {name n : String} (h : t.isUsed n = true) :
    (t.reserve name).isUsed n = true := by
  rw [NameTable.isUsed_reserve, h, Bool.or_true]

theorem lists_of_stages {stages : PerStage StageBuild}
    (h : { s with stages := stages }.bodies = s.bodies) :
    s.Lists p { s with stages := stages } :=
  ⟨.of_eq rfl rfl rfl rfl rfl, h⟩

theorem bodies_modify {t : Stage} {f : StageBuild → StageBuild} (h : ∀ b, (f b).body = b.body) :
    { s with stages := s.stages.modify t f }.bodies = s.bodies :=
  funext fun u => s.stages.map_get_modify t u h

theorem listing_modifyHere {f : StageBuild → StageBuild} (h : ∀ b, (f b).body = b.body) :
    (Law.listing p).Keeps env (modifyHere f) :=
  fun _ _ => lists_of_stages (bodies_modify h)

/-- Something is listed in the current stage; no item loses its names. -/
theorem meets_listHere {α : Type} {a : α} {f : StageBuild → StageBuild} {s₀ : BuildState} {i : Item}
    (hf : ∀ b, (f b).body = b.body) (hl : s₀.Lists p s') (hi : s₀.namesOf i ≠ []) :
    Meets (do
        modifyHere f
        return a) env s' ends fun a' s'' =>
      s₀.Lists p s'' ∧ a' = a ∧ s''.namesOf i = s₀.namesOf i := by
  have listed : s'.Lists p { s' with stages := s'.stages.modify env.stage f } :=
    lists_of_stages (bodies_modify hf)
  exact ⟨hl.trans listed, rfl, (hl.trans listed).keep hi⟩

theorem listing_modify {f : BuildState → BuildState}
    (h : ∀ s, (f s).namesOf = s.namesOf ∧ (f s).globals = s.globals ∧ (f s).groups = s.groups ∧
      (f s).varyings = s.varyings ∧ (f s).functions = s.functions ∧ (f s).bodies = s.bodies) :
    (Law.listing p).Keeps env (modify f) := by
  intro s _
  obtain ⟨hn, hg, hgroups, hv, hf, hb⟩ := h s
  exact ⟨.of_eq hg hn hgroups hv hf, hb⟩

theorem bindName_listing (id : NodeId) (name : String) (frame : Option FrameId) :
    (Law.listing p).Keeps env (bindName id name frame) :=
  .read (.bind .here fun _ => listing_modify fun _ => ⟨rfl, rfl, rfl, rfl, rfl, rfl⟩)

/-- A name that all stages share was free. -/
theorem meets_claimGlobal {name : String} {post : String → BuildState → Prop}
    (h : ∀ n, s.globals.isUsed n = false →
      post n { s with globals := s.globals.reserve n }) :
    Meets (claimGlobal name) env s ends post := by
  have free := s.globals.claim_free .empty name
  rw [NameTable.isTaken, Bool.or_eq_false_iff] at free
  exact h _ free.1

/-- A name of the entry point was free, there and among those that all stages share. -/
theorem meets_claimLocal {name : String} {post : String → BuildState → Prop}
    (h : ∀ n, (s.stages.get env.stage).names.isTaken s.globals n = false →
      post n { s with stages := s.stages.modify env.stage fun b =>
        { b with names := (s.stages.get env.stage).names.reserve n } }) :
    Meets (claimLocal name) env s ends post :=
  h _ ((s.stages.get env.stage).names.claim_free s.globals name)

/-- A numbered name of the entry point was free. -/
theorem meets_claimTemp {post : String → BuildState → Prop}
    (h : ∀ n counter, (s.stages.get env.stage).names.isTaken s.globals n = false →
      post n { s with stages := s.stages.modify env.stage fun b =>
        { b with names := (s.stages.get env.stage).names.reserve n, tempCounter := counter } }) :
    Meets claimTemp env s ends post :=
  h _ _ ((s.stages.get env.stage).names.claimNumbered_free s.globals "nodeVar"
    (s.stages.get env.stage).tempCounter)

theorem markTypeIn_listing (fuel : Nat) (t : ValueType) :
    (Law.listing p).Keeps env (markTypeIn fuel t) :=
  .markTypeIn (L := Law.listing p) trivial (fun _ => listing_modifyHere fun _ => rfl) fuel t

theorem markType_listing (t : ValueType) : (Law.listing p).Keeps env (markType t) :=
  .read (markTypeIn_listing _ t)

theorem useType_listing (t : ValueType) : (Law.listing p).Keeps env (useType t) :=
  .useType markType_listing t

/-! ### Uniforms -/

theorem groupEntry_listing (group : String) :
    Meets (groupEntry group) env s (fun _ => True) fun g s' =>
      s.Lists p s' ∧ s'.groups.get? group = some g ∧ s'.uniforms = s.uniforms := by
  unfold groupEntry
  rw [meets_bind, meets_get]
  cases hg : s.groups.get? group with
  | some g => exact ⟨.refl s, hg, rfl⟩
  | none =>
    dsimp only
    rw [meets_bind]
    refine meets_claimGlobal fun block hblock => ?_
    rw [meets_bind]
    refine meets_claimGlobal fun inst hinst => ?_
    refine ⟨⟨.enter (.group group) ?_ (.two hblock hinst) ?_ ?_ ?_ ?_ id rfl,
      rfl⟩, ?_, rfl⟩
    · simp only [namesOf, OrderedMap.get?_put, if_pos, Option.elim]
    · rw [namesOf, hg, Option.elim]
    · intro j hj
      cases j with
      | group name =>
        have : name ≠ group := fun h => hj (h ▸ rfl)
        simp only [namesOf, OrderedMap.get?_put, if_neg this]
      | _ => rfl
    · intro name g' hg' m hm
      simp only [OrderedMap.get?_put] at hg'
      split at hg'
      · cases hg'
        cases hm
      · exact .inl ⟨g', hg', hm⟩
    · intro j hj
      cases hj
    · exact (OrderedMap.get?_put _ _ _ _).trans (if_pos rfl)

/-- The entry of a group is replaced by one with the same names and members. -/
theorem lists_putGroup {group : String} {g g' : GroupEntry} (hg : s.groups.get? group = some g)
    (hb : g'.block = g.block) (hi : g'.inst = g.inst) (hm : g'.members = g.members) :
    s.Lists p { s with groups := s.groups.put group g' } := by
  refine ⟨.of_same rfl (fun i => ?_) (fun name g'' h => ?_) id rfl, rfl⟩
  · cases i with
    | group name =>
      simp only [namesOf, OrderedMap.get?_put]
      split
      · next h => rw [h, hg, Option.elim, Option.elim, hb, hi]
      · rfl
    | _ => rfl
  · simp only [OrderedMap.get?_put] at h
    split at h
    · next hn =>
      cases h
      exact ⟨g, hn ▸ hg, hm⟩
    · exact ⟨g'', h, rfl⟩

theorem uniformEntry_listing (key : UniformKey) (type : ValueType) (update : Cadence)
    (value : List Float32) (id : NodeId) :
    Meets (uniformEntry key type update value id) env s (fun _ => True) fun u s' =>
      s.Lists p s' ∧ s'.uniforms.get? key = some u := by
  unfold uniformEntry
  rw [meets_bind, meets_get]
  cases hu : s.uniforms.get? key with
  | some u =>
    exact meets_check fun _ => ⟨.refl s, hu⟩
  | none =>
    dsimp only
    rw [meets_bind]
    refine (groupEntry_listing (p := p) key.group).imp ?_
    rintro g s₁ ⟨lists, hg, hsame⟩
    rw [meets_bind]
    refine meets_claimGlobal fun member hmember => ?_
    refine ⟨lists.trans ⟨.enter (.member key) ?_ (.one hmember) ?_ ?_ ?_ ?_
      (fun h => h) rfl, rfl⟩, ?_⟩
    · simp only [namesOf, OrderedMap.get?_put, if_pos, Option.elim]
    · rw [namesOf, hsame, hu, Option.elim]
    · intro j hj
      cases j with
      | member k =>
        have : k ≠ key := fun h => hj (h ▸ rfl)
        simp only [namesOf, OrderedMap.get?_put, if_neg this]
      | group name =>
        simp only [namesOf, OrderedMap.get?_put]
        split
        · next h => rw [h, hg, Option.elim, Option.elim]
        · rfl
      | _ => rfl
    · intro name g' hg' m hm
      simp only [OrderedMap.get?_put] at hg'
      split at hg'
      · next h =>
        cases hg'
        rcases List.mem_append.1 hm with hm | hm
        · exact .inl ⟨g, h ▸ hg, hm⟩
        -- the new member is the uniform itself
        · refine .inr ⟨key.name, ?_⟩
          have own : (⟨key.name, name⟩ : UniformKey) = key := by rw [h]
          rw [List.mem_singleton.1 hm, own]
          simp [namesOf, OrderedMap.get?_put]
      · exact .inl ⟨g', hg', hm⟩
    · rintro j ⟨⟩
      rw [namesOf, hg, Option.elim]
      exact List.cons_ne_nil _ _
    · exact (OrderedMap.get?_put _ _ _ _).trans (if_pos rfl)

theorem scheduleUniform_listing (key : UniformKey) (update : Cadence) (id : NodeId) :
    (Law.listing p).Keeps env (scheduleUniform key update id) := by
  have record : (Law.listing p).Keeps env (do
      let uid := (← read).plan.graph.uid
      modify fun s => { s with updates := s.updates.put id ⟨uid, id, key.name, update⟩ }) :=
    .read (listing_modify fun _ => ⟨rfl, rfl, rfl, rfl, rfl, rfl⟩)
  refine .ite (fun _ => .pure _) fun _ s hp => ?_
  rw [meets_bind]
  refine (groupEntry_listing (p := p) key.group).imp ?_
  rintro g s' ⟨lists, hg, -⟩
  refine Meets.imp ?_ fun _ s'' (h : s'.Lists p s'') => lists.trans h
  split
  · exact Keeps.when (fun _ => .fail rfl) (fun _ => record) s' hp
  · have put : Meets (putGroup key.group { g with cadence := some update }) env s'
        (fun _ => True) fun _ s'' => s'.Lists p s'' := lists_putGroup hg rfl rfl rfl
    rw [meets_bind]
    exact put.imp fun _ s₁ h₁ => (record s₁ hp).imp fun _ _ h => h₁.trans h

theorem registerUniform_listing (id : NodeId) (name : String) (type : ValueType)
    (group : Option String) (update : Cadence) (value : List Float32) (hp : env.plan = p) :
    Meets (registerUniform id name type group update value) env s (fun _ => True) fun u s' =>
      s.Lists p s' ∧ u.1 = group.getD update.defaultGroup ∧
        s'.namesOf (.member ⟨name, group.getD update.defaultGroup⟩) = [u.2.member] := by
  unfold registerUniform
  refine meets_check fun _ => ?_
  rw [meets_bind]
  refine (uniformEntry_listing (p := p) _ type update value id).imp ?_
  rintro u s' ⟨lists, hu⟩
  rw [meets_bind]
  refine (scheduleUniform_listing _ update id s' hp).imp fun _ s'' lists' => ?_
  have entered : s'.namesOf (.member ⟨name, group.getD update.defaultGroup⟩) = [u.member] := by
    rw [namesOf, hu, Option.elim]
  exact ⟨lists.trans lists', rfl, (lists'.keep (entered ▸ List.cons_ne_nil _ _)).trans entered⟩

/-- A uniform is read as the member of the block of its group. -/
theorem useUniform_entry (group : String) (u : UniformEntry) :
    Meets (useUniform group u) env s (fun _ => True) fun e s' =>
      s.Lists p s' ∧ ∃ block inst, e = .reference (.uniform inst u.member) ∧
        s'.namesOf (.group group) = [block, inst] := by
  unfold useUniform
  rw [meets_bind]
  refine (groupEntry_listing (p := p) group).imp ?_
  rintro g s' ⟨lists, hg, -⟩
  have names : s'.namesOf (.group group) = [g.block, g.inst] := by rw [namesOf, hg, Option.elim]
  have declare : ∀ s'', s'.Lists p s'' → Meets (do
      modifyHere fun b => { b with groups := appendNew b.groups group }
      return Expr.reference (.uniform g.inst u.member)) env s'' (fun _ => True) fun e s₃ =>
        s.Lists p s₃ ∧ ∃ block inst, e = .reference (.uniform inst u.member) ∧
          s₃.namesOf (.group group) = [block, inst] :=
    fun _ h => Meets.imp (meets_listHere (fun _ => rfl) h (names ▸ List.cons_ne_nil _ _))
      fun _ _ h => ⟨lists.trans h.1, g.block, g.inst, h.2.1, h.2.2.trans names⟩
  refine (meets_ite _ _ _).2 ⟨fun _ => ?_, fun _ => declare s' (.refl s')⟩
  let bound : BuildState := { s' with nextBinding := s'.nextBinding + 1 }
  let g' : GroupEntry := { g with binding := some s'.nextBinding }
  have claim : s'.Lists p bound := ⟨.of_eq rfl rfl rfl rfl rfl, rfl⟩
  let used : BuildState := { bound with groups := bound.groups.put group g' }
  have put : bound.Lists p used := lists_putGroup hg rfl rfl rfl
  exact declare used (claim.trans put)

theorem useUniform_listing (group : String) (u : UniformEntry) :
    (Law.listing p).Keeps env (useUniform group u) :=
  fun _ _ => (useUniform_entry group u).imp fun _ _ h => h.1

/-! ### Textures, storage buffers and attributes -/

theorem registerTexture_listing (name : String) :
    Meets (registerTexture name) env s ends fun t s' =>
      s.Lists p s' ∧ s'.textures.get? name = some t := by
  unfold registerTexture
  rw [meets_bind, meets_get]
  cases ht : s.textures.get? name with
  | some t => exact ⟨.refl s, ht⟩
  | none =>
    dsimp only
    rw [meets_bind]
    refine meets_claimGlobal fun texture htexture => ?_
    rw [meets_bind]
    refine meets_claimGlobal fun sampler hsampler => ?_
    refine ⟨⟨.enter (.texture name) ?_ (.two htexture hsampler) ?_ ?_
      (fun _ g h m hm => .inl ⟨g, h, hm⟩) (fun _ h => nomatch h) id rfl, rfl⟩, ?_⟩
    · simp only [namesOf, OrderedMap.get?_put, if_pos, Option.elim]
    · rw [namesOf, ht, Option.elim]
    · intro j hj
      cases j with
      | texture k =>
        have : k ≠ name := fun h => hj (h ▸ rfl)
        simp only [namesOf, OrderedMap.get?_put, if_neg this]
      | _ => rfl
    · exact (OrderedMap.get?_put _ _ _ _).trans (if_pos rfl)

/-- A texture is sampled under its names. -/
theorem useTexture_entry (name : String) :
    Meets (useTexture name) env s (fun _ => True) fun t s' =>
      s.Lists p s' ∧ s'.namesOf (.texture name) = [t.name, t.sampler] := by
  unfold useTexture
  rw [meets_bind]
  refine (registerTexture_listing (p := p) name).imp ?_
  rintro t s' ⟨lists, ht⟩
  have names : s'.namesOf (.texture name) = [t.name, t.sampler] := by rw [namesOf, ht, Option.elim]
  have declare : ∀ s'', s'.Lists p s'' → Meets (do
      modifyHere fun b => { b with textures := appendNew b.textures name }
      return t) env s'' (fun _ => True) fun t s₃ =>
        s.Lists p s₃ ∧ s₃.namesOf (.texture name) = [t.name, t.sampler] :=
    fun _ h => Meets.imp (meets_listHere (fun _ => rfl) h (names ▸ List.cons_ne_nil _ _))
      fun _ _ h => ⟨lists.trans h.1, h.2.1 ▸ h.2.2.trans names⟩
  refine (meets_ite _ _ _).2 ⟨fun _ => ?_, fun _ => declare s' (.refl s')⟩
  let used : BuildState := { s' with
    nextBinding := s'.nextBinding + 2
    textures := s'.textures.put name { t with binding := some s'.nextBinding } }
  have put : s'.Lists p used := by
    refine ⟨.of_same rfl (fun i => ?_) (fun _ g h => ⟨g, h, rfl⟩) id rfl, rfl⟩
    cases i with
    | texture k =>
      simp only [namesOf, used, OrderedMap.get?_put]
      split
      · next h => rw [h, ht, Option.elim, Option.elim]
      · rfl
    | _ => rfl
  exact declare used put

theorem useTexture_listing (name : String) : (Law.listing p).Keeps env (useTexture name) :=
  fun _ _ => (useTexture_entry name).imp fun _ _ h => h.1

/-- The entry of a storage buffer is replaced by one with the same names. -/
theorem lists_putStorage {name : String} {b b' : StorageEntry}
    (hb : s.storage.get? name = some b) (hn : b'.name = b.name) (hblock : b'.block = b.block) :
    s.Lists p { s with storage := s.storage.put name b' } := by
  refine ⟨.of_same rfl (fun i => ?_) (fun _ g h => ⟨g, h, rfl⟩) id rfl, rfl⟩
  cases i with
  | storage k =>
    simp only [namesOf, OrderedMap.get?_put]
    split
    · next h => rw [h, hb, Option.elim, Option.elim, hn, hblock]
    · rfl
  | _ => rfl

theorem registerStorage_listing (name : String) (element : ValueType) (count : Option UInt32)
    (access : Access) :
    Meets (registerStorage name element count access) env s (fun _ => True) fun b s' =>
      s.Lists p s' ∧ s'.storage.get? name = some b := by
  unfold registerStorage
  rw [meets_bind, meets_get]
  cases hb : s.storage.get? name with
  | some b =>
    refine meets_check fun _ => ⟨lists_putStorage hb ?_ ?_, ?_⟩
    · split <;> rfl
    · split <;> rfl
    · exact (OrderedMap.get?_put _ _ _ _).trans (if_pos rfl)
  | none =>
    refine meets_check fun _ => ?_
    rw [meets_bind]
    refine meets_claimGlobal fun emitted hemitted => ?_
    rw [meets_bind]
    refine meets_claimGlobal fun block hblock => ?_
    refine ⟨⟨.enter (.storage name) ?_ (.two hemitted hblock) ?_ ?_
      (fun _ g h m hm => .inl ⟨g, h, hm⟩) (fun _ h => nomatch h) id rfl, rfl⟩, ?_⟩
    · simp only [namesOf, OrderedMap.get?_put, if_pos, Option.elim]
    · rw [namesOf, hb, Option.elim]
    · intro j hj
      cases j with
      | storage k =>
        have : k ≠ name := fun h => hj (h ▸ rfl)
        simp only [namesOf, OrderedMap.get?_put, if_neg this]
      | _ => rfl
    · exact (OrderedMap.get?_put _ _ _ _).trans (if_pos rfl)

/-- The reference to a storage buffer. -/
theorem useStorage_reference (name : String) (b : StorageEntry) :
    Returns (fun e => e = .reference (.storage b.name)) (useStorage name b) := by
  have declare : Returns (fun e => e = .reference (.storage b.name)) (do
      markType b.element
      modifyHere fun h => { h with storage := appendNew h.storage name }
      return Expr.reference (.storage b.name)) := .bind fun _ => .bind fun _ => .pure rfl
  exact .ite (.bind fun _ => .bind fun _ => declare) declare

theorem useStorage_listing {name : String} {b : StorageEntry} (hp : env.plan = p)
    (hb : s.storage.get? name = some b) :
    Meets (useStorage name b) env s (fun _ => True) fun _ s' => s.Lists p s' := by
  have declare : (Law.listing p).Keeps env (do
      markType b.element
      modifyHere fun h => { h with storage := appendNew h.storage name }
      return Expr.reference (.storage b.name)) :=
    .bind (markType_listing _) fun _ =>
      .bind (listing_modifyHere fun _ => rfl) fun _ => .pure _
  unfold useStorage
  refine (meets_ite _ _ _).2 ⟨fun _ => ?_, fun _ => declare s hp⟩
  let bound : BuildState := { s with nextBinding := s.nextBinding + 1 }
  let b' : StorageEntry := { b with binding := some s.nextBinding }
  have claim : s.Lists p bound := ⟨.of_eq rfl rfl rfl rfl rfl, rfl⟩
  let used : BuildState := { bound with storage := bound.storage.put name b' }
  have put : bound.Lists p used := lists_putStorage hb rfl rfl
  exact (declare used hp).imp fun _ _ h => (claim.trans put).trans h

/-- An attribute is the one of its name, or it is entered under a name that was free. -/
theorem meets_registerAttribute {name : String} {explicit : Option ValueType}
    {post : AttributeEntry → BuildState → Prop}
    (old : ∀ a, s.attributes.get? name = some a → post a s)
    (new : ∀ type emitted, s.attributes.get? name = none → s.globals.isUsed emitted = false →
      let a : AttributeEntry := ⟨emitted, type, none⟩
      post a { s with
        globals := s.globals.reserve emitted
        attributes := s.attributes.put name a }) :
    Meets (registerAttribute name explicit) env s (fun _ => True) post := by
  unfold registerAttribute
  rw [meets_bind]
  have type : Law.looking.Keeps env (attributeType name explicit) := .attributeType name explicit
  refine (type s trivial).imp fun t s' hs' => ?_
  obtain rfl : s' = s := hs'
  refine meets_check fun _ => ?_
  rw [meets_bind, meets_get]
  cases ha : s'.attributes.get? name with
  | some a => exact meets_check fun _ => old a ha
  | none =>
    dsimp only
    rw [meets_bind]
    exact meets_claimGlobal fun emitted free => new t emitted ha free

theorem registerAttribute_listing (name : String) (explicit : Option ValueType) :
    Meets (registerAttribute name explicit) env s (fun _ => True) fun a s' =>
      s.Lists p s' ∧ s'.attributes.get? name = some a := by
  refine meets_registerAttribute (fun a ha => ⟨.refl s, ha⟩) fun type emitted ha free => ?_
  refine ⟨⟨.enter (.meshAttribute name) ?_ (.one free) ?_ ?_
    (fun _ g h m hm => .inl ⟨g, h, hm⟩) (fun _ h => nomatch h) id rfl, rfl⟩, ?_⟩
  · simp only [namesOf, OrderedMap.get?_put, if_pos, Option.elim]
  · rw [namesOf, ha, Option.elim]
  · intro j hj
    cases j with
    | meshAttribute k =>
      have : k ≠ name := fun h => hj (h ▸ rfl)
      simp only [namesOf, OrderedMap.get?_put, if_neg this]
    | _ => rfl
  · exact (OrderedMap.get?_put _ _ _ _).trans (if_pos rfl)

/-- An attribute is read under its name. -/
theorem useAttribute_entry (name : String) (explicit : Option ValueType) :
    Meets (useAttribute name explicit) env s (fun _ => True) fun e s' =>
      s.Lists p s' ∧ ∃ n, e = .reference (.meshAttribute n) ∧
        s'.namesOf (.meshAttribute name) = [n] := by
  unfold useAttribute
  rw [meets_bind]
  refine (registerAttribute_listing (p := p) name explicit).imp ?_
  rintro a s' ⟨lists, ha⟩
  have names : s'.namesOf (.meshAttribute name) = [a.name] := by rw [namesOf, ha, Option.elim]
  have declare : ∀ s'', s'.Lists p s'' → Meets (do
      modifyHere fun b => { b with attributes := appendNew b.attributes name }
      return Expr.reference (.meshAttribute a.name)) env s'' (fun _ => True) fun e s₃ =>
        s.Lists p s₃ ∧ ∃ n, e = .reference (.meshAttribute n) ∧
          s₃.namesOf (.meshAttribute name) = [n] :=
    fun _ h => Meets.imp (meets_listHere (fun _ => rfl) h (names ▸ List.cons_ne_nil _ _))
      fun _ _ h => ⟨lists.trans h.1, a.name, h.2.1, h.2.2.trans names⟩
  refine (meets_ite _ _ _).2 ⟨fun _ => ?_, fun _ => declare s' (.refl s')⟩
  let used : BuildState := { s' with
    attributes := s'.attributes.put name { a with location := some s'.nextAttribute }
    nextAttribute := s'.nextAttribute + 1 }
  have put : s'.Lists p used := by
    refine ⟨.of_same rfl (fun i => ?_) (fun _ g h => ⟨g, h, rfl⟩) id rfl, rfl⟩
    cases i with
    | meshAttribute k =>
      simp only [namesOf, used, OrderedMap.get?_put]
      split
      · next h => rw [h, ha, Option.elim, Option.elim]
      · rfl
    | _ => rfl
  exact declare used put

theorem useAttribute_listing (name : String) (explicit : Option ValueType) :
    (Law.listing p).Keeps env (useAttribute name explicit) :=
  fun _ _ => (useAttribute_entry name explicit).imp fun _ _ h => h.1

theorem useBuiltin_listing (b : Builtin) : (Law.listing p).Keeps env (useBuiltin b) := by
  refine .bind .stage fun t => .when (fun _ => .fail rfl) fun _ => ?_
  exact .bind (listing_modifyHere fun _ => rfl) fun _ => .pure _

/-! ### Native functions -/

/-- A name is claimed and another one may be reserved. -/
theorem isUsed_claim_reserve {t : NameTable} {name claimed emitted n : String}
    (h : claimed = (t.claim .empty name).1) :
    (if emitted = claimed then (t.claim .empty name).2
      else (t.claim .empty name).2.reserve emitted).isUsed n = true ↔
      t.isUsed n = true ∨ n = claimed ∨ n = emitted := by
  have taken : (t.claim .empty name).2 = t.reserve claimed := h ▸ rfl
  have claim : ((t.claim .empty name).2.isUsed n = true) ↔ t.isUsed n = true ∨ n = claimed := by
    rw [taken, NameTable.isUsed_reserve, Bool.or_eq_true, beq_iff_eq, or_comm]
  split
  · next same => rw [claim, same, or_self]
  · rw [NameTable.isUsed_reserve, Bool.or_eq_true, beq_iff_eq, or_comm, claim, or_assoc]

/-- A function that was read is entered after those that it includes. -/
theorem enterFunction_listing {native : NativeFunction} {id : FunctionId}
    {included : List FunctionEntry} (hp : env.plan = p) (hg : p.graph.function? id = some native)
    (hnew : s.functions.get? id = none)
    (hi : native.includes.map s.functions.get? = included.map some) :
    Meets (do
        let f ← ofExcept (Native.Declaration.read native.dialect native.source)
        let entry ← functionEntry native f (included.map FunctionEntry.source)
        modify fun s => { s with functions := s.functions.put id entry }
        return entry) env s (fun _ => True) fun f s' =>
      s.Lists p s' ∧ s'.functions.get? id = some f ∧
        (∀ j, j ≠ id → s'.functions.get? j = s.functions.get? j) ∧
        s'.stages = s.stages ∧ (s.Transcribed p → s'.Transcribed p) := by
  subst hp
  rw [meets_bind, meets_ofExcept]
  split
  · next f hread =>
    rw [meets_bind]
    refine (functionEntry_renders native f _).imp ?_
    rintro e s₁ ⟨renders, hclaimed, rfl⟩
    rw [meets_bind, meets_modify, meets_pure]
    have own : ∀ m : OrderedMap FunctionId FunctionEntry, (m.put id e).get? id = some e :=
      fun m => (OrderedMap.get?_put _ _ _ _).trans (if_pos rfl)
    have other : ∀ (m : OrderedMap FunctionId FunctionEntry) j, j ≠ id →
        (m.put id e).get? j = m.get? j := fun m j hj => (OrderedMap.get?_put _ _ _ _).trans (if_neg hj)
    have used := fun n => @isUsed_claim_reserve s.globals f.name e.claimed e.name n hclaimed
    refine ⟨⟨.enterSpelled (.function id) (fun n => ?_) (fun n hn => ?_) ?_ (fun j hj => ?_)
      (fun _ g h m hm => .inl ⟨g, h, hm⟩) ?_ (fun h => h) (fun j hj => other _ j fun h => hj (h ▸ rfl))
      (fun j f hj hf => ?_) fun h => OrderedMap.nodup_keys_put h id e, rfl⟩, own _, other _, rfl,
      fun ht => ht.put rfl hnew hg ⟨hread, included, hi, renders⟩ ?_ fun n hn => (used n).2 (.inl hn)⟩
    · refine (used n).trans (or_congr_right ?_)
      rw [mem_spelledAs_function, namesOf, calledAs, own, Option.elim, Option.map_some,
        List.mem_singleton, Option.some_inj, eq_comm (a := e.name)]
    · rw [namesOf, own, Option.elim, List.mem_singleton] at hn
      have free := s.globals.claim_free .empty f.name
      rw [NameTable.isTaken, Bool.or_eq_false_iff] at free
      rw [hn, hclaimed]
      exact free.1
    · rw [namesOf, hnew, Option.elim]
    · cases j with
      | function k =>
        have : k ≠ id := fun h => hj (h ▸ rfl)
        simp only [namesOf, OrderedMap.get?_put, if_neg this]
      | _ => rfl
    · rintro j ⟨⟩
      next j native' hj hf =>
      cases hg.symm.trans hf
      have mem : s.functions.get? j ∈ included.map some := hi ▸ List.mem_map_of_mem hj
      obtain ⟨e', -, he'⟩ := List.mem_map.1 mem
      rw [namesOf, ← he', Option.elim]
      exact List.cons_ne_nil _ _
    · cases hj
      cases (own _).symm.trans hf
      exact renders.name
    · rw [hclaimed]
      refine (s.globals.claim_near f.name).mono fun n hn => ?_
      split
      · exact hn
      · exact isUsed_reserve_of_isUsed hn
  · trivial

/-- A function is read after those that it includes; meanwhile those that include it, on the
`path`, stay unread. -/
theorem registerFunctionIn_listing {fuel : Nat} {path : List FunctionId} {id : FunctionId}
    (hp : env.plan = p) :
    Meets (registerFunctionIn fuel path id) env s (fun _ => True) fun f s' =>
      s.Lists p s' ∧ s'.functions.get? id = some f ∧
        (∀ j ∈ path, s.functions.get? j = none → s'.functions.get? j = none) ∧
        s'.stages = s.stages ∧ (s.Transcribed p → s'.Transcribed p) := by
  induction fuel generalizing path id s with
  | zero => trivial
  | succ fuel ih =>
    rw [registerFunctionIn, meets_bind, meets_get]
    cases hid : s.functions.get? id with
    | some f => exact ⟨.refl s, hid, fun _ _ h => h, rfl, fun h => h⟩
    | none =>
      refine meets_check fun hc => ?_
      have hc : id ∉ path := by simpa using hc
      rw [meets_bind, meets_read]
      cases hg : env.plan.graph.function? id with
      | none => trivial
      | some native =>
        dsimp only
        rw [meets_bind]
        have includes : Meets (native.includes.mapM (registerFunctionIn fuel (id :: path))) env s
            (fun _ => True) fun included s' =>
            s.Lists p s' ∧ native.includes.map s'.functions.get? = included.map some ∧
              (∀ j ∈ id :: path, s.functions.get? j = none → s'.functions.get? j = none) ∧
              s'.stages = s.stages ∧ (s.Transcribed p → s'.Transcribed p) := by
          refine meets_mapM (fun done included s' => s.Lists p s' ∧
            done.map s'.functions.get? = included.map some ∧
              (∀ j ∈ id :: path, s.functions.get? j = none → s'.functions.get? j = none) ∧
              s'.stages = s.stages ∧ (s.Transcribed p → s'.Transcribed p))
            ⟨.refl s, rfl, fun _ _ h => h, rfl, fun h => h⟩ ?_
          rintro done included i s' _ ⟨lists, entered, unread, stages, transcribed⟩
          refine ih.imp ?_
          rintro f s'' ⟨lists', hf, unread', stages', transcribed'⟩
          refine ⟨lists.trans lists', ?_, fun j hj h => unread' j hj (unread j hj h),
            stages'.trans stages, transcribed' ∘ transcribed⟩
          rw [List.map_append, List.map_append, List.map_singleton, List.map_singleton, hf,
            map_some_mono entered fun _ _ => lists'.functions]
        refine includes.imp ?_
        rintro included s' ⟨lists, entered, unread, stages, transcribed⟩
        have new := unread id (.head _) hid
        refine (enterFunction_listing hp (hp ▸ hg) new entered).imp ?_
        rintro f s'' ⟨lists', hf, other, stages', transcribed'⟩
        refine ⟨lists.trans lists', hf, fun j hj hnone => ?_, stages'.trans stages,
          transcribed' ∘ transcribed⟩
        rw [other j fun h => hc (h ▸ hj)]
        exact unread j (.tail _ hj) hnone

theorem registerFunction_listing (id : FunctionId) (hp : env.plan = p) :
    Meets (registerFunction id) env s (fun _ => True) fun f s' =>
      s.Lists p s' ∧ s'.functions.get? id = some f := by
  rw [meets_registerFunction]
  exact (registerFunctionIn_listing hp).imp fun _ _ h => ⟨h.1, h.2.1⟩

/-- Reading a function touches no stage, and what is entered for functions is what was read. -/
theorem registerFunction_transcribed (id : FunctionId) (hp : env.plan = p) :
    Meets (registerFunction id) env s (fun _ => True) fun _ s' =>
      s'.stages = s.stages ∧ (s.Transcribed p → s'.Transcribed p) := by
  rw [meets_registerFunction]
  exact (registerFunctionIn_listing hp).imp fun _ _ h => h.2.2.2

theorem registerFunction_lists (id : FunctionId) :
    (Law.listing p).Keeps env (registerFunction id) :=
  fun _ hp => (registerFunction_listing id hp).imp fun _ _ h => h.1

theorem useFunctionIn_listing (fuel : Nat) (id : FunctionId) :
    (Law.listing p).Keeps env (useFunctionIn fuel id) :=
  .useFunctionIn (L := Law.listing p) trivial markType_listing registerFunction_lists
    (fun _ => listing_modifyHere fun _ => rfl) fuel id

theorem useFunction_listing (id : FunctionId) : (Law.listing p).Keeps env (useFunction id) :=
  .bind (.read (.pure _)) fun fuel => useFunctionIn_listing fuel id

/-! ### Types and varyings -/

theorem listing_indifferent : (Law.listing p).Indifferent where
  ends _ := trivial
  surroundings hi hp _ := hp.trans hi
  types _ _ _ := ⟨.of_eq rfl rfl rfl rfl rfl, rfl⟩
  functions := registerFunction_lists

theorem typeOf_listing (id : NodeId) : (Law.listing p).Keeps env (typeOf id) :=
  typeOf_indifferent listing_indifferent id

/-- The name of a varying was free. -/
theorem meets_claimVarying {name : Option String} {post : String → BuildState → Prop}
    (h : ∀ n counter, s.globals.isUsed n = false →
      post n { s with globals := s.globals.reserve n, varyingCounter := counter }) :
    Meets (claimVarying name) env s ends post := by
  cases name with
  | some name => exact meets_claimGlobal fun n hn => h n s.varyingCounter hn
  | none =>
    have free := s.globals.claimNumbered_free .empty "nodeVarying" s.varyingCounter
    rw [NameTable.isTaken, Bool.or_eq_false_iff] at free
    exact h _ _ free.1

/-- A varying is entered under a name of its own. -/
theorem enterVarying_listing {id source : NodeId} {name : Option String}
    {interpolation : Interpolation} {sampling : Option Sampling} (hp : env.plan = p)
    (hn : p.node id = .ok (.varying source name interpolation sampling))
    (hnew : s.varyings.get? id = none) :
    Meets (enterVarying id source name interpolation sampling) env s (fun _ => True) fun v s' =>
      s.Lists p s' ∧ s'.varyings.get? id = some v := by
  refine meets_enterVarying
    (((typeOf_listing source s hp).and (typeOf_still source s trivial)).imp ?_)
  rintro type s₁ ⟨(lists : s.Lists p s₁), still⟩
  have none : s₁.varyings.get? id = none := by
    rw [show s₁.varyings = s.varyings from congrArg Still.varyings still]
    exact hnew
  refine meets_claimVarying fun emitted counter hemitted => ?_
  refine ⟨lists.trans ⟨.enter (.varying id) ?_ (.one hemitted) ?_ ?_
    (fun _ g h m hm => .inl ⟨g, h, hm⟩) (fun _ h => nomatch h) (fun h => h.put hn) rfl, rfl⟩, ?_⟩
  · simp only [namesOf, OrderedMap.get?_put, if_pos, Option.elim]
  · rw [namesOf, none, Option.elim]
  · intro j hj
    cases j with
    | varying k =>
      have : k ≠ id := fun h => hj (h ▸ rfl)
      simp only [namesOf, OrderedMap.get?_put, if_neg this]
    | _ => rfl
  · exact (OrderedMap.get?_put _ _ _ _).trans (if_pos rfl)

/-- A varying is entered when it is met first. -/
theorem registerVarying_entry {id source : NodeId} {name : Option String}
    {interpolation : Interpolation} {sampling : Option Sampling} (hp : env.plan = p)
    (hn : p.node id = .ok (.varying source name interpolation sampling)) :
    Meets (registerVarying id source name interpolation sampling) env s (fun _ => True) fun v s' =>
      s.Lists p s' ∧ s'.varyings.get? id = some v := by
  unfold registerVarying
  rw [meets_bind, meets_get]
  cases hv : s.varyings.get? id with
  | some v => exact ⟨.refl s, hv⟩
  | none => exact enterVarying_listing hp hn hv

/-- The entry of a varying has the source that the node of the varying refers to. -/
theorem registerVarying_listing {id source : NodeId} {name : Option String}
    {interpolation : Interpolation} {sampling : Option Sampling} (hp : env.plan = p)
    (hn : p.node id = .ok (.varying source name interpolation sampling)) (hs : s.Named p) :
    Meets (registerVarying id source name interpolation sampling) env s (fun _ => True) fun v s' =>
      s.Lists p s' ∧ v.source = source ∧ s'.namesOf (.varying id) = [v.name] := by
  refine (registerVarying_entry hp hn).imp ?_
  rintro v s' ⟨lists, hv⟩
  obtain ⟨_, _, _, hn'⟩ := (lists.named hs).sources id v hv
  cases hn.symm.trans hn'
  exact ⟨lists, rfl, by rw [namesOf, hv, Option.elim]⟩

/-- A varying keeps its name when it gets its location. -/
theorem locateVarying_listing {id : NodeId} {v : VaryingEntry} {name : Option String}
    {interpolation : Interpolation} {sampling : Option Sampling}
    (hn : p.node id = .ok (.varying v.source name interpolation sampling))
    (hv : s.namesOf (.varying id) = [v.name]) :
    Meets (locateVarying id v) env s ends fun _ s' => s.Lists p s' := by
  unfold locateVarying
  rw [meets_modify]
  split
  · exact .refl s
  · refine ⟨.of_same rfl (fun i => ?_) (fun _ g h => ⟨g, h, rfl⟩)
      (fun h => h.put hn) rfl, rfl⟩
    cases i with
    | varying k =>
      by_cases h : k = id
      · rw [h, hv]
        simp [namesOf, OrderedMap.get?_put]
      · simp only [namesOf, OrderedMap.get?_put, if_neg h]
    | _ => rfl

end ShaderGraph.Build
