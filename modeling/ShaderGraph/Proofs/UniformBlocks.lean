import ShaderGraph.Proofs.CapturingBuild
import ShaderGraph.Proofs.LocalScopes

/-!
# Uniform blocks and buffers

A renderer fills the buffers that a build lists, and programs read the blocks that they declare. Both
are made of tables of their own: the groups and the uniforms. `uniforms_agree` says that a block has
the members of its buffer, and that what a program reads of a uniform is a member of a block that it
declares, the same one for all nodes of the uniform.
-/

namespace ShaderGraph

open Build

/-! ### References -/

/-- What the code of some statements refers to. -/
def Statement.referencesIn (ss : List Statement) : List Reference :=
  collectIn (fun st => st.exprs.flatMap Expr.references) ss

/-- What the code of a program refers to. -/
def Program.references (prog : Program) : List Reference :=
  Statement.referencesIn (prog.locals ++ prog.body) ++ prog.output.toList.flatMap Expr.references

/-- Statements in scope refer to what is known, and to locals. -/
theorem Statement.Scoped.known {known : Reference → Prop} {scope : List String}
    {ss : List Statement}
    (h : Scoped known scope ss) : ∀ r ∈ referencesIn ss, known r ∨ ∃ n, r = .local n := by
  have expr : ∀ {scope} {e : Expr}, e.Refers known scope →
      ∀ r ∈ e.references, known r ∨ ∃ n, r = .local n :=
    fun he r hr => (he r hr).imp_right fun ⟨n, _, hn⟩ => ⟨n, hn⟩
  have cons : ∀ {st : Statement} {rest : List Statement},
      (∀ e ∈ st.exprs, ∀ r ∈ e.references, known r ∨ ∃ n, r = .local n) →
      (∀ r ∈ referencesIn st.blocks, known r ∨ ∃ n, r = .local n) →
      (∀ r ∈ referencesIn rest, known r ∨ ∃ n, r = .local n) →
        ∀ r ∈ referencesIn (st :: rest), known r ∨ ∃ n, r = .local n := by
    intro st rest own below after r hr
    rw [referencesIn, collectIn, collect_eq, List.mem_append, List.mem_append] at hr
    rcases hr with (hr | hr) | hr
    · obtain ⟨e, he, hr⟩ := List.mem_flatMap.1 hr
      exact own e he r hr
    · exact below r hr
    · exact after r hr
  induction h with
  | nil => exact fun _ hr => nomatch hr
  | declare _ value _ ih =>
    exact cons (fun e he => expr (value e (Option.mem_toList.1 he))) nofun ih
  | assign place value _ ih | update place value _ ih =>
    refine cons (fun e he => ?_) nofun ih
    rcases List.mem_pair.1 he with rfl | rfl
    · exact expr place
    · exact expr value
  | call args _ ih => exact cons (fun e he => expr (args e he)) nofun ih
  | jump _ ih => exact cons nofun nofun ih
  | branch condition _ _ _ iht ihe ih =>
    refine cons (fun e he => List.mem_singleton.1 he ▸ expr condition) (fun r hr => ?_) ih
    rw [blocks, referencesIn, collectIn_append, List.mem_append] at hr
    exact hr.elim (iht r) (ihe r)
  | loop _ start stop _ _ ihb ih =>
    refine cons (fun e he => ?_) ihb ih
    rcases List.mem_pair.1 he with rfl | rfl
    · exact expr start
    · exact expr stop

/-- Declarations without values refer to nothing. -/
theorem Statement.referencesIn_tops {ss : List Statement}
    (h : ∀ st ∈ ss, ∃ name type, st = .declare name type none .mutable none) :
    referencesIn ss = [] := by
  induction ss with
  | nil => rfl
  | cons st rest ih =>
    obtain ⟨name, type, rfl⟩ := h st (.head _)
    exact ih fun st hst => h st (.tail _ hst)

/-- A program in scope refers to what it knows, and to locals. -/
theorem Program.InScope.known {prog : Program} (h : prog.InScope) :
    ∀ r ∈ prog.references, prog.Knows r ∨ ∃ n, r = .local n := by
  intro r hr
  rw [references, Statement.referencesIn, Statement.collectIn_append, List.mem_append,
    List.mem_append] at hr
  rcases hr with (hr | hr) | hr
  · have none' := Statement.referencesIn_tops h.tops
    rw [Statement.referencesIn] at none'
    rw [none'] at hr
    cases hr
  · exact h.body.known r hr
  · obtain ⟨e, he, hr⟩ := List.mem_flatMap.1 hr
    exact (h.output e (Option.mem_toList.1 he) r hr).imp_right fun ⟨n, _, hn⟩ => ⟨n, hn⟩

/-! ### Buffers -/

/-- What a uniform goes by in a graph. -/
def UniformInput.key (i : UniformInput) : UniformKey := ⟨i.name, i.group⟩

namespace BuildState

variable {p : Plan} {s : BuildState} {active : List Stage} {b : UniformBuffer}

/-- The name that a uniform has as a member. -/
def memberName (s : BuildState) (key : UniformKey) : String :=
  (s.uniforms.get? key).elim "" UniformEntry.member

/-- The name that the block of a group has as a variable. -/
def blockInstance (s : BuildState) (group : String) : String :=
  (s.groups.get? group).elim "" GroupEntry.inst

/-- Whether the group of a uniform has its number. -/
def isListed (s : BuildState) (key : UniformKey) : Bool :=
  ((s.groups.get? key.group).bind GroupEntry.binding).isSome

/-- How a uniform is listed. -/
def inputOf (e : UniformKey × UniformEntry) : UniformInput :=
  ⟨e.1.name, e.2.type, e.1.group, e.2.update, e.2.value, e.2.node⟩

theorem memberName_of_mem (hg : s.inputs.Grouped) {e : UniformKey × UniformEntry}
    (he : e ∈ s.uniforms.entries) : s.memberName e.1 = e.2.member := by
  have entered : s.uniforms.get? e.1 = some e.2 := OrderedMap.get?_of_mem hg.keys he
  rw [memberName, entered]
  rfl

theorem uniformInputs_eq (s : BuildState) :
    s.uniformInputs = (s.uniforms.entries.filter fun e => s.isListed e.1).map inputOf := by
  have each : ∀ e : UniformKey × UniformEntry, (if s.isListed e.1 then some (inputOf e) else none) =
      (if s.isListed e.1 then some e else none).map inputOf := fun e => by
    split <;> rfl
  refine (List.filterMap_congr fun e _ => each e).trans ?_
  rw [← List.map_filterMap, ← List.filterMap_eq_filter]
  exact congrArg _ (List.filterMap_congr fun e _ => rfl)

/-- A buffer that is listed is that of a group that has its number. -/
theorem of_mem_resources (hn : s.inputs.Numbered) (hb : .uniformBuffer b ∈ s.resources active) :
    ∃ g, s.groups.get? b.group = some g ∧ g.binding = some b.binding ∧ b.block = g.block ∧
      b.cadence = g.cadence.getD .none ∧ b.members.map Layout.Placed.toSlot = s.slots b.group := by
  rcases mem_resources_iff.1 hb with ⟨⟨group, g⟩, he, hr⟩ | ⟨⟨name, e⟩, -, hr⟩ | ⟨⟨name, e⟩, -, hr⟩
  · obtain ⟨binding, bound, hb⟩ := Option.map_eq_some_iff.1 hr
    cases hb
    exact ⟨g, OrderedMap.get?_of_mem hn.groups.keys he, bound, rfl, rfl, Layout.map_placeFrom 0 _⟩
  · unfold textureResources at hr
    split at hr
    · cases hr
    · rcases List.mem_pair.1 hr with hr | hr <;> cases hr
  · obtain ⟨binding, -, hb⟩ := Option.map_eq_some_iff.1 hr
    cases hb

/-- A group that has its number has its buffer. -/
theorem buffer_of_group {group : String} {g : GroupEntry} (hg : s.groups.get? group = some g)
    (hb : g.binding.isSome) : ∃ b, .uniformBuffer b ∈ s.resources active ∧ b.group = group := by
  have buffer : (s.uniformBuffer? active group g).isSome := by
    rwa [uniformBuffer?, Option.isSome_map]
  obtain ⟨r, hr⟩ := Option.isSome_iff_exists.1 buffer
  have listed : r ∈ s.resources active :=
    mem_resources_iff.2 (.inl ⟨_, OrderedMap.mem_of_find? hg, hr⟩)
  obtain ⟨binding, -, rfl⟩ := Option.map_eq_some_iff.1 hr
  exact ⟨_, listed, rfl⟩

/-- A buffer has the members of the block of its group. -/
theorem members_block {g : GroupEntry} (hg : s.inputs.Grouped) (hn : s.inputs.Numbered)
    (hb : .uniformBuffer b ∈ s.resources active) (found : s.groups.get? b.group = some g) :
    g.members = b.members.map fun m => (m.name, m.type) := by
  obtain ⟨-, -, -, -, -, placed⟩ := of_mem_resources hn hb
  have slots : (b.members.map fun m => (m.name, m.type)) =
      (s.slots b.group).map fun m => (m.name, m.type) := by
    rw [← placed, List.map_map]
    rfl
  rw [slots, BuildState.slots, List.map_map, hg.members _ g found]
  rfl

/-- The members of a buffer are the uniforms of its group. -/
theorem members_buffer (hg : s.inputs.Grouped) (hn : s.inputs.Numbered)
    (hb : .uniformBuffer b ∈ s.resources active) :
    (b.members.map fun m => (m.name, m.type)) =
      (s.uniformInputs.filter fun i => i.group = b.group).map fun i =>
        (s.memberName i.key, i.type) := by
  obtain ⟨g, found, bound, -⟩ := of_mem_resources hn hb
  have listed : ∀ e : UniformKey × UniformEntry, e.1.group = b.group → s.isListed e.1 = true := by
    intro e he
    rw [isListed, he, found, Option.bind_some, bound]
    rfl
  have own : (s.uniforms.entries.filter fun e => e.1.group = b.group) =
      s.uniforms.entries.filter fun e =>
        decide ((inputOf e).group = b.group) && s.isListed e.1 := by
    refine List.filter_congr fun e _ => ?_
    show decide (e.1.group = b.group) = (decide (e.1.group = b.group) && _)
    by_cases he : e.1.group = b.group
    · rw [listed e he, Bool.and_true]
    · rw [decide_eq_false he, Bool.false_and]
  rw [← members_block hg hn hb found, hg.members _ g found, uniformInputs_eq, List.filter_map,
    List.filter_filter, List.map_map]
  refine Eq.trans ?_ (congrArg (List.map _) own)
  refine List.map_congr_left fun e he => ?_
  exact congrArg (·, e.2.type) (memberName_of_mem hg (List.mem_of_mem_filter he)).symm

/-- Uniforms that are listed have members of their own. -/
theorem nodup_memberNames (hg : s.inputs.Grouped) (hs : s.Named p) :
    (s.uniformInputs.map fun i => s.memberName i.key).Nodup := by
  have owned : ∀ e ∈ s.uniforms.entries, s.memberName e.1 ∈ s.namesOf (.member e.1) :=
    fun e he => by
    have entered : s.uniforms.get? e.1 = some e.2 := OrderedMap.get?_of_mem hg.keys he
    rw [memberName_of_mem hg he, namesOf, entered]
    exact .head _
  have distinct : (s.uniforms.entries.map fun e => s.memberName e.1).Nodup := by
    refine List.Nodup.map_on (fun e he e' he' same => ?_) (List.Nodup.of_map Prod.fst hg.keys)
    have one : Item.member e.1 = .member e'.1 := hs.distinct (owned e he) (same ▸ owned e' he')
    exact List.inj_on_of_nodup_map hg.keys he he' (Item.member.inj one)
  rw [uniformInputs_eq, List.map_map]
  exact distinct.sublist (List.filter_sublist.map _)

/-- A uniform that is refreshed is listed with the cadence of its buffer. -/
theorem cadence_buffer {i : UniformInput} (hg : s.inputs.Grouped) (hn : s.inputs.Numbered)
    (ht : ∀ key, s.inputs.Timed key) (hi : i ∈ s.uniformInputs) (hu : i.update ≠ .none)
    (hb : .uniformBuffer b ∈ s.resources active) (own : b.group = i.group) :
    b.cadence = i.update := by
  obtain ⟨g, found, -, -, cadence, -⟩ := of_mem_resources hn hb
  rw [uniformInputs_eq] at hi
  obtain ⟨e, he, rfl⟩ := List.mem_map.1 hi
  have entered := OrderedMap.get?_of_mem hg.keys (List.mem_of_mem_filter he)
  obtain ⟨g', found', timed⟩ := ht e.1 e.2 entered hu
  have found' : s.groups.get? e.1.group = some g' := found'
  rw [own] at found
  cases found.symm.trans found'
  rw [cadence, timed]
  rfl

variable {t : Stage} {prog : Program}

/-- A program that declares the block of a buffer declares it as the buffer is listed. -/
theorem Presents.block_eq {u : UniformBlock ValueType} (h : s.Presents p t prog) (hs : s.Named p)
    (hg : s.inputs.Grouped) (hn : s.inputs.Numbered) (hu : u ∈ prog.uniforms)
    (hb : .uniformBuffer b ∈ s.resources active) (same : u.block = b.block) :
    u = ⟨b.block, s.blockInstance b.group, b.binding, b.members.map fun m => (m.name, m.type)⟩ := by
  rw [h.uniforms, sortByNumber, mem_sortBy, List.mem_filterMap] at hu
  obtain ⟨group, -, hu⟩ := hu
  obtain ⟨g, hg', rfl⟩ := Option.map_eq_some_iff.1 hu
  obtain ⟨g', found, bound, block, -⟩ := of_mem_resources hn hb
  have named : ∀ {group g}, s.groups.get? group = some g → g.block ∈ s.namesOf (.group group) := by
    intro group g hg
    rw [namesOf, hg]
    exact .head _
  have shared : g.block = g'.block := same.trans block
  cases hs.distinct (named hg') (shared ▸ named found)
  cases hg'.symm.trans found
  rw [← members_block hg hn hb found, blockInstance, found, bound, block]
  rfl

/-- A uniform that is read is listed, with the buffer of its group. -/
theorem listed_of_visit {v : Visit} {name : String} {type : ValueType} {group : Option String}
    {update : Cadence} {value : List Float32} (hs : s.Named p) (hn : s.inputs.Numbered)
    (answered : s.Answered p v) (resolves : s.Resolves v)
    (node : p.node v.key.node = .ok (.uniform name type group update value)) :
    ∃ i ∈ s.uniformInputs, i.key = ⟨name, group.getD update.defaultGroup⟩ ∧
      v.code = some (.reference (.uniform (s.blockInstance i.group) (s.memberName i.key))) ∧
        ∃ b, .uniformBuffer b ∈ s.resources active ∧ b.group = i.group := by
  obtain ⟨block, inst, member, hgroup, hmember, code⟩ := answered name type group update value node
  obtain ⟨t, -, known⟩ := resolves
  obtain ⟨group', listed, ⟨block', hgroup'⟩, -⟩ | ⟨_, hr⟩ := known _ code _ (.head _)
  · -- the instance is that of one group only
    have here : inst ∈ s.namesOf (.group group') := hgroup' ▸ .tail _ (.head _)
    have there : inst ∈ s.namesOf (.group (group.getD update.defaultGroup)) :=
      hgroup ▸ .tail _ (.head _)
    cases hs.distinct here there
    obtain ⟨g, hg, numbered⟩ := hn.groups.numbered t _ listed
    obtain ⟨g', found, -, rfl⟩ := group_of_namesOf hgroup
    obtain ⟨u, entered, rfl⟩ := uniform_of_namesOf hmember
    cases hg.symm.trans found
    have hg : s.groups.get? (group.getD update.defaultGroup) = some g := hg
    refine ⟨inputOf (⟨name, group.getD update.defaultGroup⟩, u), ?_, rfl, code.trans ?_,
      buffer_of_group hg numbered⟩
    · rw [uniformInputs_eq]
      refine List.mem_map_of_mem (List.mem_filter.2 ⟨OrderedMap.mem_of_find? entered, ?_⟩)
      rw [isListed, hg]
      exact numbered
    · show _ = some (Expr.reference (.uniform (s.blockInstance (group.getD update.defaultGroup))
        (s.memberName ⟨name, group.getD update.defaultGroup⟩)))
      rw [blockInstance, hg, memberName, entered]
      rfl
  · cases hr

end BuildState

/-! ### Builds -/

/-- The uniform blocks of the programs agree with the buffers that a build lists. `inst` gives the
name of the block of a group as a variable and `member` that of a uniform as a member. -/
structure Artifact.Agrees (a : Artifact) (inst : String → String) (member : UniformKey → String) :
    Prop where
  /-- Whoever declares the block of a buffer declares it with the members of the buffer. -/
  blocks : ∀ b, .uniformBuffer b ∈ a.bindings → ∀ prog ∈ a.programs,
    ∀ u ∈ (prog.written a.dialect).uniforms, u.block = b.block → u.inst = inst b.group ∧
      u.binding = b.binding ∧ u.members = b.members.map fun m => (m.name, a.dialect.spelling m.type)
  /-- What a program reads of uniforms are members of blocks that it declares. -/
  references : ∀ prog ∈ a.programs, ∀ i m, .uniform i m ∈ prog.references →
    ∃ u ∈ prog.uniforms, u.inst = i ∧ m ∈ u.members.map Prod.fst
  /-- The members of a buffer are the uniforms of its group. -/
  members : ∀ b, .uniformBuffer b ∈ a.bindings → (b.members.map fun m => (m.name, m.type)) =
    (a.uniforms.filter fun i => i.group = b.group).map fun i => (member i.key, i.type)
  /-- Each uniform is listed once, and has a member of its own. -/
  distinct : (a.uniforms.map fun i => member i.key).Nodup
  /-- A buffer is refreshed as often as its members, apart from those that are never refreshed. -/
  cadence : ∀ i ∈ a.uniforms, i.update ≠ .none → ∀ b, .uniformBuffer b ∈ a.bindings →
    b.group = i.group → b.cadence = i.update

open BuildState

variable {g : Graph} {request : BuildRequest} {options : BuildOptions} {host : Host} {a : Artifact}

/-- The uniform blocks of the programs of a build agree with the buffers that it lists, and all nodes
of one uniform are read as its one member. -/
theorem uniforms_agree (h : build g request options host = .ok a) : ∃ p s inst member,
    Plan.make g options (request.roots.map Prod.snd) host = .ok p ∧ run p request.roots = .ok s ∧
      a.Agrees inst member ∧ ∀ v ∈ s.visits, ∀ name type group update value,
        p.node v.key.node = .ok (.uniform name type group update value) →
          ∃ i ∈ a.uniforms, i.name = name ∧ i.group = group.getD update.defaultGroup ∧
            v.code = some (.reference (.uniform (inst i.group) (member i.key))) ∧
              ∃ b, .uniformBuffer b ∈ a.bindings ∧ b.group = i.group := by
  obtain ⟨p, s, hmake, hrun, assembles, records⟩ := recorded_of_build h
  have named := records.enters.named (named_start p)
  have numbered := records.numbered (InputTables.numbered_start p)
  have grouped := records.grouped (InputTables.grouped_start p)
  have stands := run_stands hrun
  refine ⟨p, s, s.blockInstance, s.memberName, hmake, hrun, ⟨?_, ?_, ?_, ?_, ?_⟩, ?_⟩
  · intro b hb prog hprog w hw same
    rw [assembles.bindings] at hb
    obtain ⟨u, hu, rfl⟩ := List.mem_map.1 hw
    rw [(assembles.programs prog hprog).block_eq named grouped numbered hu hb same]
    exact ⟨rfl, rfl, List.map_map ..⟩
  · intro prog hprog i m hr
    rcases (inScope_of_build h prog hprog).known _ hr with known | ⟨n, hn⟩
    · exact known
    · cases hn
  · intro b hb
    rw [assembles.bindings] at hb
    rw [assembles.uniforms]
    exact members_buffer grouped numbered hb
  · rw [assembles.uniforms]
    exact nodup_memberNames grouped named
  · intro i hi hu b hb own
    rw [assembles.bindings] at hb
    rw [assembles.uniforms] at hi
    exact cadence_buffer grouped numbered
      (fun key => records.timed key (InputTables.timed_start p key))
      hi hu hb own
  · intro v hv name type group update value node
    have answered := records.answered (fun v hv => nomatch hv) v hv
    have resolves := stands.tidy.logged.known v hv
    obtain ⟨i, hi, key, code, b, hb, own⟩ :=
      @listed_of_visit p s request.stages _ _ _ _ _ _ named numbered answered resolves node
    exact ⟨i, assembles.uniforms ▸ hi, congrArg UniformKey.name key,
      congrArg UniformKey.group key, code,
      b, assembles.bindings ▸ hb, own⟩

/-- The buffer that a resource is. -/
def Resource.buffer? : Resource → Option UniformBuffer
  | .uniformBuffer b => some b
  | _ => none

theorem Resource.of_buffer? {r : Resource} {b : UniformBuffer} (h : r.buffer? = some b) :
    r = .uniformBuffer b := by
  cases r with
  | uniformBuffer b' => exact congrArg _ (Option.some.inj h)
  | _ => cases h

/-- A uniform that two nodes stand for, and one of its group that is never refreshed. -/
def faded : Graph := .ofNodes
  [.uniform "tint" .vec4 none .frame [1], .uniform "gain" .float (some "frame") .none [1],
    .operator .mul ⟨0⟩ ⟨1⟩, .uniform "tint" .vec4 none .frame [1], .operator .add ⟨2⟩ ⟨3⟩]

/-- The fragment program of `faded` declares the one buffer with its two members. -/
theorem faded_agrees : ∃ a inst member,
    build faded ⟨none, some ⟨4⟩, none⟩ (.ofDialect .wgsl) = .ok a ∧ a.Agrees inst member ∧
      ∃ b, .uniformBuffer b ∈ a.bindings ∧ b.members.length = 2 ∧ ∃ prog ∈ a.programs,
        ∃ u ∈ (prog.written a.dialect).uniforms, u.binding = b.binding ∧
          u.members = b.members.map fun m => (m.name, a.dialect.spelling m.type) := by
  have two : achieves (fun a => (a.bindings.filterMap Resource.buffer?).any fun b =>
        b.members.length = 2 && a.programs.any fun prog =>
          (prog.written a.dialect).uniforms.any fun u => u.block = b.block)
      (build faded ⟨none, some ⟨4⟩, none⟩ (.ofDialect .wgsl)) = true := by
    decide +kernel
  obtain ⟨a, ha, hany⟩ := of_achieves two
  obtain ⟨p, s, inst, member, -, -, agrees, -⟩ := uniforms_agree ha
  obtain ⟨b, hb, hany⟩ := List.any_eq_true.1 hany
  obtain ⟨r, hr, found⟩ := List.mem_filterMap.1 hb
  cases Resource.of_buffer? found
  obtain ⟨length, hany⟩ := Bool.and_eq_true_iff.1 hany
  obtain ⟨prog, hprog, hany⟩ := List.any_eq_true.1 hany
  obtain ⟨u, hu, same⟩ := List.any_eq_true.1 hany
  obtain ⟨-, binding, members⟩ := agrees.blocks b hr prog hprog u hu (of_decide_eq_true same)
  exact ⟨a, inst, member, ha, agrees, b, hr, of_decide_eq_true length, prog, hprog, u, hu,
    binding, members⟩

end ShaderGraph
