import ShaderGraph.Proofs.GlslText
import ShaderGraph.Proofs.NumberingBuild
import ShaderGraph.Proofs.Signature
import ShaderGraph.Proofs.SpelledCode

/-!
# Programs declare the structs that they spell

A program declares the structs of all types that it spells, once each, behind those that they need
(`structs_declared`). So it spells no struct that contains itself: marking such a type does not end.
A layout that contains itself is accepted nevertheless, and a build that does not use it succeeds
(`looped_not_refused`).
-/

namespace ShaderGraph

open Build BuildState

/-- The types that a program spells. -/
def Program.types (prog : Program) : List ValueType :=
  prog.structs.flatMap (fun d => d.members.map Prod.snd) ++
  (prog.uniforms.flatMap (fun u => u.members.map Prod.snd) ++
  (prog.storage.map StorageDecl.element ++
  ((prog.attributes ++ prog.varyings).map LocationDecl.type ++
  (Statement.typesIn prog.locals ++ (Statement.typesIn prog.body ++
    Expr.optionTypes prog.output)))))

/-- The types that the signature of a native function spells. -/
def Native.Declaration.types (f : Native.Declaration) : List ValueType :=
  f.result :: f.inputs.map Native.Parameter.valueType

/-- A program declares the structs that it needs, as they are laid out. -/
structure Program.DeclaresStructs (p : Plan) (prog : Program) : Prop where
  once : (prog.structs.map StructDecl.name).Nodup
  layouts : ∀ d ∈ prog.structs, ∃ members, p.structs.get? d.name = some members ∧
    d.members = members.map fun m => (m.name, m.type)
  complete : ∀ t ∈ prog.types, ∀ name, p.NeedsStruct t name →
    name ∈ prog.structs.map StructDecl.name
  ordered : ∀ before d after, prog.structs = before ++ d :: after →
    ∀ m ∈ d.members, ∀ name, p.NeedsStruct m.2 name → name ∈ before.map StructDecl.name
  grounded : ∀ t ∈ prog.types, p.Grounded t

/-! ### Native functions -/

/-- A type that can be read by name holds no struct. -/
theorem ValueType.Nameable.heldStruct? {t : ValueType} (h : t.Nameable) : t.heldStruct? = none := by
  have plain : ∀ t ∈ plainTypes, t.heldStruct? = none := by decide
  rcases h.cases with h | ⟨e, he, n, rfl⟩
  · exact plain t h
  · exact plain e he

namespace Native

variable {t : ValueType} {cs : List Char}

theorem heldStruct?_of_glslType {name : String} (h : glslType name = .ok t) :
    t.heldStruct? = none := by
  unfold glslType at h
  split at h
  · cases h
  · cases h
  · next hname =>
    cases h
    exact ValueType.Nameable.heldStruct? ⟨name, hname⟩

theorem heldStruct?_of_wgslGeneric? (h : wgslGeneric? cs = some (some t)) : t.heldStruct? = none := by
  obtain ⟨n, -, h⟩ := List.exists_of_findSome?_eq_some h
  rcases Option.or_eq_some_iff.1 h with h | ⟨-, h⟩
  · obtain ⟨inner, -, h⟩ := Option.map_eq_some_iff.1 h
    obtain ⟨k, -, rfl⟩ := Option.map_eq_some_iff.1 h
    rfl
  · obtain ⟨m, -, h⟩ := List.exists_of_findSome?_eq_some h
    obtain ⟨rest, -, h⟩ := Option.map_eq_some_iff.1 h
    split at h
    · cases h
      rfl
    · cases h

theorem heldStruct?_of_wgslPlainType? (h : wgslPlainType? cs = some t) : t.heldStruct? = none := by
  unfold wgslPlainType? at h
  split at h
  · next generic =>
    subst h
    exact heldStruct?_of_wgslGeneric? generic
  · dsimp only at h
    split at h
    · cases h
      rfl
    · split at h
      · exact ValueType.Nameable.heldStruct? ⟨_, h⟩
      · cases h

theorem heldStruct?_of_wgslTypeIn? {depth : Nat} (h : wgslTypeIn? depth cs = some t) :
    t.heldStruct? = none := by
  induction depth generalizing cs t with
  | zero => cases h
  | succ depth ih =>
    rw [wgslTypeIn?] at h
    split at h
    · exact heldStruct?_of_wgslPlainType? h
    · split at h
      · split at h
        · next element _ =>
          cases h
          have held := ih element
          exact held
        · cases h
      · cases h

theorem heldStruct?_of_wgslParameter {q : Parameter × String} (h : wgslParameter cs = .ok q) :
    q.1.valueType.heldStruct? = none := by
  unfold wgslParameter at h
  dsimp only at h
  split at h
  · cases h
  · obtain ⟨⟨passing, value⟩, -, h⟩ := bind_ok h
    dsimp only at h
    split at h
    · cases h
    · next type =>
      cases h
      exact heldStruct?_of_wgslTypeIn? type
    · next type =>
      cases h
      exact heldStruct?_of_wgslTypeIn? type

theorem heldStruct?_of_wgslResult {r : ValueType × Option String} (h : wgslResult cs = .ok r) :
    r.1.heldStruct? = none := by
  unfold wgslResult at h
  dsimp only at h
  split at h
  · split at h
    · next type =>
      cases h
      exact heldStruct?_of_wgslTypeIn? type
    · cases h
  · split at h
    · cases h
      rfl
    · cases h

theorem types_of_readWgsl {source : String} {f : Declaration} (h : readWgsl source = .ok f) :
    (∀ q ∈ f.inputs, q.valueType.heldStruct? = none) ∧ f.result.heldStruct? = none := by
  unfold readWgsl at h
  split at h
  · cases h
  · split at h
    · cases h
    · dsimp only at h
      split at h
      · cases h
      · obtain ⟨-, -, h⟩ := bind_ok h
        obtain ⟨⟨inside, after⟩, -, h⟩ := bind_ok h
        obtain ⟨inputs, read, h⟩ := bind_ok h
        obtain ⟨⟨between, text⟩, -, h⟩ := bind_ok h
        obtain ⟨⟨result, resultText⟩, type, h⟩ := bind_ok h
        cases h
        refine ⟨fun q hq => ?_, heldStruct?_of_wgslResult type⟩
        obtain ⟨input, hinput, rfl⟩ := List.mem_map.1 hq
        obtain ⟨piece, -, hpiece⟩ := mem_of_mapM_ok read hinput
        exact heldStruct?_of_wgslParameter hpiece

/-- The signature of a native function spells no type that holds a struct. -/
theorem Declaration.heldStruct?_of_read {d : Dialect} {source : String} {f : Declaration}
    (h : Declaration.read d source = .ok f) : ∀ t ∈ f.types, t.heldStruct? = none := by
  cases d with
  | glsl =>
    obtain ⟨-, ⟨word, result⟩, inputs⟩ := readGlsl_eq_ok h
    refine List.forall_mem_cons.2 ⟨heldStruct?_of_glslType result, fun t ht => ?_⟩
    obtain ⟨q, hq, rfl⟩ := List.mem_map.1 ht
    obtain ⟨stem, -, type⟩ := inputs q hq
    have held := heldStruct?_of_glslType type
    unfold Parameter.valueType
    split <;> exact held
  | wgsl =>
    obtain ⟨inputs, result⟩ := types_of_readWgsl h
    refine List.forall_mem_cons.2 ⟨result, fun t ht => ?_⟩
    obtain ⟨q, hq, rfl⟩ := List.mem_map.1 ht
    exact inputs q hq

end Native

/-! ### Runs -/

/-- After a run the stages list the structs of all that they spell. -/
theorem Build.run_spelled {p : Plan} {rs : List (Stage × NodeId)} {s : BuildState}
    (h : run p rs = .ok s) : s.Spelled p := by
  obtain ⟨s₀, hanalyze, hgenerate⟩ := of_run h
  have start : ∀ r ∈ rs, (Law.spelling p).inv (Env.root p (rs.map Prod.fst) r.1)
      (BuildState.start p) := fun _ _ => ⟨rfl, spelled_start p⟩
  have first := Law.Keeps.atRoots start fun r _ => analyze_spelling r.2
  rw [hanalyze] at first
  have spelled := first.spelled (spelled_start p)
  have middle : ∀ r ∈ rs, (Law.spelling p).inv (Env.root p (rs.map Prod.fst) r.1) s₀ :=
    fun _ _ => ⟨rfl, spelled⟩
  have second := Law.Keeps.atRoots middle fun r _ =>
    (types_sustained.generateStage r.2).keeps fun _ => trivial
  rw [hgenerate] at second
  exact second.spelled spelled

/-! ### Programs -/

namespace BuildState

variable {p : Plan} {s : BuildState} {stage : Stage} {prog : Program}

theorem name_of_structDecl {name : String} {d : StructDecl ValueType}
    (h : structDecl p name = .ok d) : d.name = name ∧ ∃ members, p.structs.get? name = some members ∧
      d.members = members.map fun m => (m.name, m.type) := by
  unfold structDecl at h
  split at h
  · cases h
  · next members layout =>
    split at h
    · cases h
    · cases h
      exact ⟨rfl, members, layout, rfl⟩

/-- What a program spells, its stage has spelled, or it holds no struct. -/
theorem Spelled.provides (hs : s.Spelled p) (h : s.Presents p stage prog)
    (hd : ∀ d ∈ prog.structs, d.name ∈ (s.stages.get stage).structs) :
    s.Provides stage prog.types := by
  have code : s.Provides stage (Statement.typesIn prog.locals ++
      (Statement.typesIn prog.body ++ Expr.optionTypes prog.output)) := by
    rw [h.locals, h.body, h.output]
    refine fun t ht => hs.types stage t ?_
    unfold StageBuild.types StageBuild.collect
    simp only [List.mem_append] at ht ⊢
    tauto
  refine List.forall_mem_append.2 ⟨fun t ht => ?_, List.forall_mem_append.2 ⟨fun t ht => ?_,
    List.forall_mem_append.2 ⟨fun t ht => ?_, List.forall_mem_append.2 ⟨fun t ht => ?_, code⟩⟩⟩⟩
  · obtain ⟨d, hmem, ht⟩ := List.mem_flatMap.1 ht
    obtain ⟨name, hname⟩ := h.structs d hmem
    obtain ⟨rfl, members, layout, same⟩ := name_of_structDecl hname
    rw [same, List.map_map] at ht
    obtain ⟨m, hm, rfl⟩ := List.mem_map.1 ht
    exact fun inner hi => ((hs.listed stage).needsFirst.idxOf_lt (hd d hmem) ⟨members, layout, m, hm, hi⟩).1
  · rw [h.uniforms] at ht
    obtain ⟨u, hu, ht⟩ := List.mem_flatMap.1 ht
    rw [sortByNumber, mem_sortBy] at hu
    obtain ⟨group, -, hg⟩ := List.mem_filterMap.1 hu
    obtain ⟨g, found, rfl⟩ := Option.map_eq_some_iff.1 hg
    obtain ⟨m, hm, rfl⟩ := List.mem_map.1 ht
    exact ValueType.heldIn_of_none (hs.groups group g found m hm)
  · rw [h.storage] at ht
    obtain ⟨b, hb, rfl⟩ := List.mem_map.1 ht
    rw [sortByNumber, mem_sortBy] at hb
    obtain ⟨name, hn, hb⟩ := List.mem_filterMap.1 hb
    obtain ⟨e, found, rfl⟩ := Option.map_eq_some_iff.1 hb
    obtain ⟨e', found', held⟩ := hs.storage stage name hn
    cases found.symm.trans found'
    exact held
  · rw [h.attributes, h.varyings] at ht
    obtain ⟨l, hl, rfl⟩ := List.mem_map.1 ht
    rw [List.mem_append, sortByNumber, mem_sortBy, sortByNumber, mem_sortBy, List.mem_filterMap,
      List.mem_filterMap] at hl
    rcases hl with ⟨name, -, hl⟩ | ⟨id, -, hl⟩
    · obtain ⟨a, found, rfl⟩ := Option.map_eq_some_iff.1 hl
      exact ValueType.heldIn_of_none (hs.attributes name a found)
    · obtain ⟨v, found, rfl⟩ := Option.map_eq_some_iff.1 hl
      exact ValueType.heldIn_of_none (hs.varyings id v found)

/-- The program of a stage declares the structs that it needs. -/
theorem Spelled.declaresStructs (hs : s.Spelled p) (h : s.stageProgram p stage = .ok prog) :
    prog.DeclaresStructs p := by
  have names : prog.structs.map StructDecl.name = (s.stages.get stage).structs :=
    map_of_mapM_ok (fun _ _ hd => (name_of_structDecl hd).1) (structs_of_stageProgram h)
  have listed : p.Listed (prog.structs.map StructDecl.name) := names ▸ hs.listed stage
  have presents := presents_of_stageProgram h
  have provides : ∀ t ∈ prog.types, t.HeldIn (prog.structs.map StructDecl.name) := by
    rw [names]
    exact hs.provides presents fun d hd => names ▸ List.mem_map_of_mem hd
  have layout : ∀ d ∈ prog.structs, ∃ members, p.structs.get? d.name = some members ∧
      d.members = members.map fun m => (m.name, m.type) := by
    intro d hd
    obtain ⟨name, hname⟩ := presents.structs d hd
    obtain ⟨rfl, laidOut⟩ := name_of_structDecl hname
    exact laidOut
  refine ⟨listed.nodup, layout, fun t ht name => listed.needs (provides t ht), ?_,
    fun t ht => listed.grounded (provides t ht)⟩
  intro before d after he m hm name hn
  rw [he, List.map_append, List.map_cons] at listed
  obtain ⟨-, members, found, held⟩ := listed.at_split
  obtain ⟨members', found', same⟩ := layout d (he ▸ List.mem_append_right _ (.head _))
  cases found.symm.trans found'
  rw [same] at hm
  obtain ⟨member, hmem, rfl⟩ := List.mem_map.1 hm
  obtain ⟨outer, hold, reach⟩ := hn
  exact listed.needsFirst.prefix_left.mem_of_reach (held member hmem outer hold) reach

end BuildState

/-- Marking a type ends if, and with layouts for all structs that it needs only if, none of these
contains itself. The program of each stage declares the structs of all that it spells, once each and
behind those that they need; the signatures of native functions need none. -/
theorem structs_declared (g : Graph) (request : BuildRequest) (options : BuildOptions) :
    (∀ p t, Plan.Grounded p t → ∀ env s, env.plan = p → markType t env s ≠ .error .exhausted) ∧
    (∀ p t, ¬Plan.Grounded p t →
      (∀ name, p.NeedsStruct t name → ∃ members, p.structs.get? name = some members) →
      ∀ env s fuel, env.plan = p → p.Listed (s.stages.get env.stage).structs →
        markTypeIn fuel t env s = .error .exhausted) ∧
    (∀ d source f, Native.Declaration.read d source = .ok f →
      ∀ t ∈ f.types, t.heldStruct? = none) ∧
    ∀ a, build g request options host = .ok a → ∃ p,
      Plan.make g options (request.roots.map Prod.snd) host = .ok p ∧
      a.programs.map ProgramOf.stage = request.stages ∧
      ∀ prog ∈ a.programs, prog.DeclaresStructs p := by
  refine ⟨?_, ?_, fun _ _ _ => Native.Declaration.heldStruct?_of_read, fun a h => ?_⟩
  · rintro _ t ht env s rfl
    exact markType_ends ht
  · rintro _ t ht layouts env s fuel rfl listed
    exact markTypeIn_exhausted listed layouts ht
  · obtain ⟨p, s, hmake, hrun, hartifact⟩ := of_build h
    refine ⟨p, hmake, (assembles_of_artifact hartifact).stages, fun prog hprog => ?_⟩
    obtain ⟨t, -, ht⟩ := stageProgram_of_artifact hartifact hprog
    exact (run_spelled hrun).declaresStructs ht

/-- A rig of lamps: what the fragment program reads of it is deep inside. -/
def rigged : Graph := .ofNodes
  [.structType "Lamp" [⟨"color", .vec3⟩, ⟨"range", .float⟩],
    .structType "Rig" [⟨"key", .struct "Lamp"⟩, ⟨"rest", .array (.struct "Lamp") 2⟩],
    .property "rig" (.struct "Rig"), .member ⟨2⟩ "key", .member ⟨3⟩ "range"]

/-- The fragment program declares lamps before rigs. -/
theorem rigged_declares : ∃ a p prog, build rigged ⟨none, some ⟨4⟩, none⟩ .standard = .ok a ∧
    Plan.make rigged .standard [⟨4⟩] = .ok p ∧ prog ∈ a.programs ∧ prog.DeclaresStructs p ∧
    prog.structs.map StructDecl.name = ["Lamp", "Rig"] := by
  have lists : achieves (fun a => a.programs.any fun prog =>
      prog.structs.map StructDecl.name = ["Lamp", "Rig"])
      (build rigged ⟨none, some ⟨4⟩, none⟩ .standard) = true := by
    decide +kernel
  obtain ⟨a, ha, hany⟩ := of_achieves lists
  obtain ⟨prog, hprog, names⟩ := List.any_eq_true.1 hany
  obtain ⟨p, hp, -, declares⟩ := (structs_declared _ _ _).2.2.2 a ha
  exact ⟨a, p, prog, ha, hp, hprog, declares prog hprog, of_decide_eq_true names⟩

/-- A struct that has itself as a member, and a value to show. -/
def looped : Graph := .ofNodes
  [.structType "S" [⟨"next", .struct "S"⟩], .const .vec4 [1]]

/-- The same with a property of that type among the values. -/
def loopedUsed : Graph := .ofNodes
  [.structType "S" [⟨"next", .struct "S"⟩], .const .vec4 [1], .property "p" (.struct "S"),
    .stack [⟨2⟩] (some ⟨1⟩)]

/-- Whether the bound on the depth of recursion is met. -/
def Failure.exhausts : Except Failure Artifact → Bool
  | .error .exhausted => true
  | _ => false

theorem Failure.of_exhausts {r : Except Failure Artifact} (h : exhausts r = true) :
    r = .error .exhausted := by
  unfold exhausts at h
  split at h
  · rfl
  · cases h

/-- Marking a struct that holds just itself has no end. -/
theorem markTypeIn_looped {p : Plan} {name : String} (loop : p.Holds name name)
    (only : ∀ inner, p.Holds name inner → inner = name) (env : Env) (s : BuildState) (fuel : Nat)
    (he : env.plan = p) (hl : p.Listed (s.stages.get env.stage).structs) :
    markTypeIn fuel (.struct name) env s = .error .exhausted := by
  subst he
  refine markTypeIn_exhausted hl ?_ fun grounded => grounded name ⟨name, rfl, .refl⟩ (.single loop)
  rintro inner ⟨_, ⟨⟩, reach⟩
  have same : inner = name := by
    induction reach with
    | refl => rfl
    | tail _ step ih => exact only _ (ih ▸ step)
  exact same ▸ loop.imp fun _ laidOut => laidOut.1

/-- The layout of a struct that contains itself is accepted. A build that does not use the struct
succeeds, and one that does goes down without end, as marking the struct does. -/
theorem looped_not_refused :
    (∃ p, Plan.make looped .standard [⟨1⟩] = .ok p ∧ p.Holds "S" "S" ∧
      ∀ env s fuel, env.plan = p → p.Listed (s.stages.get env.stage).structs →
        markTypeIn fuel (.struct "S") env s = .error .exhausted) ∧
      (build looped ⟨none, some ⟨1⟩, none⟩ .standard).isOk = true ∧
      (∃ p, Plan.make loopedUsed .standard [⟨3⟩] = .ok p ∧ p.Holds "S" "S") ∧
      build loopedUsed ⟨none, some ⟨3⟩, none⟩ .standard = .error .exhausted := by
  obtain ⟨p, hp, layout⟩ : ∃ p, Plan.make looped .standard [⟨1⟩] = .ok p ∧
      p.structs.get? "S" = some [⟨"next", .struct "S"⟩] := ⟨_, by rfl, by rfl⟩
  obtain ⟨p', hp', layout'⟩ : ∃ p, Plan.make loopedUsed .standard [⟨3⟩] = .ok p ∧
      p.structs.get? "S" = some [⟨"next", .struct "S"⟩] := ⟨_, by rfl, by rfl⟩
  have loop : p.Holds "S" "S" := ⟨_, layout, _, .head _, rfl⟩
  have only : ∀ inner, p.Holds "S" inner → inner = "S" := by
    rintro inner ⟨members, found, m, hm, hi⟩
    cases layout.symm.trans found
    cases List.mem_singleton.1 hm
    exact (Option.some.inj hi).symm
  refine ⟨⟨p, hp, loop, markTypeIn_looped loop only⟩, ?_, ⟨p', hp', _, layout', _, .head _, rfl⟩, ?_⟩
  · decide +kernel
  · exact Failure.of_exhausts (by decide +kernel)

end ShaderGraph
