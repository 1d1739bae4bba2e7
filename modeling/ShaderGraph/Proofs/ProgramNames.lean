import ShaderGraph.Proofs.Collections
import ShaderGraph.Proofs.Entered

/-!
# The names of programs

What the programs of a build declare, inside of their entry points and outside, in terms of the
state that they are put together from: a name inside is one that an entry point declares
(`declares_of_localNames`), a name outside is that of a struct or of an item
(`named_of_moduleNames`).
-/

namespace ShaderGraph

/-- The names that the entry point of a program declares. -/
def Program.localNames (prog : Program) : List String :=
  Statement.namesIn (prog.locals ++ prog.body)

/-- The names that a program declares outside of its entry point, apart from those of native
functions. -/
def Program.moduleNames (prog : Program) : List String :=
  prog.structs.map StructDecl.name ++
  prog.uniforms.flatMap (fun u => u.block :: u.inst :: u.members.map Prod.fst) ++
  prog.textures.flatMap (fun t => [t.name, t.sampler]) ++
  prog.storage.flatMap (fun b => [b.name, b.block]) ++
  prog.attributes.map LocationDecl.name ++
  prog.varyings.map LocationDecl.name

/-- The names that the programs of a build declare outside of their entry points. -/
def Artifact.moduleNames (a : Artifact) : List String :=
  a.programs.flatMap Program.moduleNames ++ a.codes.map NativeCode.name

namespace BuildState

variable {p : Plan} {s : BuildState} {stage : Stage} {prog : Program} {n : String}

/-- A program that is put together from a state. -/
structure Presents (s : BuildState) (p : Plan) (stage : Stage) (prog : Program) : Prop where
  structs : ∀ d ∈ prog.structs, ∃ name, structDecl p name = .ok d
  uniforms : prog.uniforms =
    sortByNumber UniformBlock.binding ((s.stages.get stage).groups.filterMap s.uniformBlock?)
  textures : prog.textures =
    sortByNumber TextureDecl.textureBinding ((s.stages.get stage).textures.filterMap s.textureDecl?)
  storage : prog.storage =
    sortByNumber StorageDecl.binding ((s.stages.get stage).storage.filterMap s.storageDecl?)
  attributes : prog.attributes =
    sortByNumber LocationDecl.location ((s.stages.get stage).attributes.filterMap s.attributeDecl?)
  varyings : prog.varyings =
    sortByNumber LocationDecl.location ((s.stages.get stage).varyings.filterMap s.varyingDecl?)
  locals : prog.locals = (s.stages.get stage).locals
  body : prog.body = (s.stages.get stage).outer.statements
  output : prog.output = (s.stages.get stage).output
  stage : prog.stage = stage

theorem presents_of_stageProgram (h : s.stageProgram p stage = .ok prog) :
    s.Presents p stage prog := by
  obtain ⟨structs, hstructs, h⟩ := bind_ok h
  dsimp only at h
  split at h
  · cases h
  · cases h
    refine ⟨fun d hd => ?_, rfl, rfl, rfl, rfl, rfl, rfl, rfl, rfl, rfl⟩
    obtain ⟨name, -, hname⟩ := mem_of_mapM_ok hstructs hd
    exact ⟨name, hname⟩

/-- A program that was checked is the one that was put together. -/
theorem stageProgram_of_checked (h : s.checkedProgram p stage = .ok prog) :
    s.stageProgram p stage = .ok prog := by
  unfold checkedProgram at h
  split at h
  · cases h
  · next program hprogram =>
    obtain rfl : program = prog := by
      dsimp only at h
      split at h
      · split at h
        · exact Except.ok.inj h
        · cases h
      · exact Except.ok.inj h
    exact hprogram

/-- Each program of an artifact is that of a stage. -/
theorem stageProgram_of_artifact {active : List Stage} {a : Artifact}
    (h : s.artifact p active = .ok a) (hp : prog ∈ a.programs) :
    ∃ t ∈ active, s.stageProgram p t = .ok prog := by
  obtain ⟨programs, hprograms, h⟩ := bind_ok h
  cases h
  obtain ⟨t, ht, hchecked⟩ := mem_of_mapM_ok hprograms hp
  exact ⟨t, ht, stageProgram_of_checked hchecked⟩

/-- The structs of a program are those that its stage lists, each as it is laid out. -/
theorem structs_of_stageProgram (h : s.stageProgram p stage = .ok prog) :
    (s.stages.get stage).structs.mapM (structDecl p) = .ok prog.structs := by
  obtain ⟨structs, hstructs, h⟩ := bind_ok h
  dsimp only at h
  split at h
  · cases h
  · cases h
    exact hstructs

/-- What an artifact holds is put together from a state. -/
theorem of_artifact {active : List Stage} {a : Artifact} (h : s.artifact p active = .ok a) :
    (∀ prog ∈ a.programs, ∃ t ∈ active, s.Presents p t prog) ∧ a.codes = s.nativeCodes active ∧
      a.dialect = p.options.dialect := by
  refine ⟨fun prog hprog => ?_, ?_⟩
  · obtain ⟨t, ht, hs⟩ := stageProgram_of_artifact h hprog
    exact ⟨t, ht, presents_of_stageProgram hs⟩
  · obtain ⟨programs, -, h⟩ := bind_ok h
    cases h
    exact ⟨rfl, rfl⟩

/-- Each stage that is asked for has its program in an artifact. -/
theorem presented_of_artifact {active : List Stage} {a : Artifact} (h : s.artifact p active = .ok a)
    (ht : stage ∈ active) : ∃ prog ∈ a.programs, s.Presents p stage prog := by
  obtain ⟨programs, hprograms, h⟩ := bind_ok h
  cases h
  obtain ⟨prog, hprog, h⟩ := ok_of_mapM_ok hprograms ht
  exact ⟨prog, hprog, presents_of_stageProgram (stageProgram_of_checked h)⟩

/-- What the entry point of a program declares, that of the stage does. -/
theorem declares_of_localNames (h : s.Presents p stage prog) (hn : n ∈ prog.localNames) :
    s.Declares n := by
  refine ⟨stage, ?_⟩
  rw [Program.localNames, Statement.namesIn, Statement.collectIn_append, h.locals, h.body] at hn
  unfold StageBuild.localNames StageBuild.collect
  rcases List.mem_append.1 hn with hn | hn
  · exact List.mem_append_left _ hn
  · exact List.mem_append_right _ (List.mem_append_right _ hn)

/-- A program declares structs and items outside of its entry point. -/
theorem named_of_moduleNames (hs : s.Named p) (h : s.Presents p stage prog)
    (hn : n ∈ prog.moduleNames) : n ∈ p.structs.keys ∨ ∃ i, n ∈ s.namesOf i := by
  simp only [Program.moduleNames, h.uniforms, h.textures, h.storage, h.attributes, h.varyings,
    List.mem_append, List.mem_map, List.mem_flatMap, sortByNumber, mem_sortBy,
    List.mem_filterMap] at hn
  rcases hn with ((((hn | hn) | hn) | hn) | hn) | hn
  · obtain ⟨d, hd, rfl⟩ := hn
    obtain ⟨name, hname⟩ := h.structs d hd
    unfold structDecl at hname
    split at hname
    · cases hname
    · next members hm =>
      split at hname
      · cases hname
      · cases hname
        exact .inl (OrderedMap.get?_isSome_iff.1 (hm ▸ rfl))
  · obtain ⟨u, ⟨group, -, hu⟩, hn⟩ := hn
    obtain ⟨g, hg, rfl⟩ := Option.map_eq_some_iff.1 hu
    rcases List.mem_cons.1 hn with rfl | hn
    · exact .inr ⟨.group group, by rw [namesOf, hg, Option.elim]; exact .head _⟩
    rcases List.mem_cons.1 hn with rfl | hn
    · exact .inr ⟨.group group, by rw [namesOf, hg, Option.elim]; exact .tail _ (.head _)⟩
    · obtain ⟨m, hm, rfl⟩ := List.mem_map.1 hn
      obtain ⟨name, hname⟩ := hs.members hg m hm
      exact .inr ⟨_, hname⟩
  · obtain ⟨d, ⟨name, -, hd⟩, hn⟩ := hn
    obtain ⟨t, ht, rfl⟩ := Option.map_eq_some_iff.1 hd
    exact .inr ⟨.texture name, by rwa [namesOf, ht, Option.elim]⟩
  · obtain ⟨d, ⟨name, -, hd⟩, hn⟩ := hn
    obtain ⟨b, hb, rfl⟩ := Option.map_eq_some_iff.1 hd
    exact .inr ⟨.storage name, by rwa [namesOf, hb, Option.elim]⟩
  · obtain ⟨d, ⟨name, -, hd⟩, rfl⟩ := hn
    obtain ⟨a, ha, rfl⟩ := Option.map_eq_some_iff.1 hd
    exact .inr ⟨.meshAttribute name, by rw [namesOf, ha, Option.elim]; exact .head _⟩
  · obtain ⟨d, ⟨id, -, hd⟩, rfl⟩ := hn
    obtain ⟨v, hv, rfl⟩ := Option.map_eq_some_iff.1 hd
    exact .inr ⟨.varying id, by rw [namesOf, hv, Option.elim]; exact .head _⟩

/-- A native function that an artifact lists is an item. -/
theorem named_of_nativeCodes (hs : s.Named p) {active : List Stage} {c : NativeCode}
    (hc : c ∈ s.nativeCodes active) : ∃ i, c.name ∈ s.spelledAs i := by
  obtain ⟨⟨id, f⟩, hmem, hc⟩ := List.mem_filterMap.1 hc
  dsimp only at hc
  split at hc
  · cases hc
  · cases hc
    refine ⟨.function id, mem_spelledAs_function.2 (.inr ?_)⟩
    rw [calledAs, OrderedMap.get?_of_mem hs.functions hmem, Option.map_some]

end BuildState

/-! ### Builds -/

open Build

variable {g : Graph} {request : BuildRequest} {options : BuildOptions} {host : Host} {a : Artifact}

/-- The settings for programs in a dialect. -/
def BuildOptions.ofDialect (d : Dialect) : BuildOptions :=
  { BuildOptions.standard with dialect := d }

/-- A build that succeeds makes a plan and runs it. -/
theorem of_build (h : build g request options host = .ok a) : ∃ p s,
    Plan.make g options (request.roots.map Prod.snd) host = .ok p ∧ run p request.roots = .ok s ∧
      s.artifact p (request.roots.map Prod.fst) = .ok a := by
  unfold build at h
  dsimp only at h
  split at h
  · cases h
  · split at h
    · cases h
    · next p hp =>
      split at h
      · cases h
      · next s hs =>
        split at h
        · next ha =>
          cases h
          exact ⟨p, s, hp, hs, ha⟩
        · cases h

/-- What a run leaves behind: items with names of their own, and entry points that declare none of
the names that were taken after analysis. -/
theorem named_of_run {p : Plan} {rs : List (Stage × NodeId)} {s : BuildState}
    (h : run p rs = .ok s) : ∃ s₀,
      (BuildState.start p).Surveys p s₀ ∧ s₀.Named p ∧ s₀.Avoids p s₀.globals [] s ∧ s.Named p ∧
        ∀ k, s.cache.Counted k → s₀.cache.Counted k := by
  obtain ⟨s₀, hanalyze, hgenerate⟩ := of_run h
  have surveys := analyze_surveys hanalyze
  have named := surveys.named (BuildState.named_start p)
  have avoids := generate_avoids named hgenerate
  obtain ⟨regular, -, covers, closed⟩ := analyze_covers _ hanalyze
  have traced := generate_traced _ regular covers closed hgenerate
  exact ⟨s₀, surveys, named, avoids, avoids.enters.named named, fun k => (traced.counted k).1⟩

end ShaderGraph
