import ShaderGraph.Proofs.CyclesBuild
import ShaderGraph.Proofs.Expansion
import ShaderGraph.Proofs.LinkingCode
import ShaderGraph.Proofs.LocalScopes

/-!
# Functions of builds

The programs of a build declare the native functions that they call and those that these include, once
each and each behind what it includes (`Artifact.Links`). A function from which a circle of includes is
reached cannot be read, so no build calls one (`functions_linked`).

In its own dialect the body of a native function is written as it stands in its source, so a call in
it means whatever has that name in the program. An included function keeps the name that it has in its
own source exactly when no other item of the build has it (`included_names`). In the build of `helped`
another function has it, and the call in the body means that one (`helped_redirected`).
-/

namespace ShaderGraph

open Relation Build

/-- Some function that is reached from a function by includes comes back to itself. -/
def Graph.IncludesCycle (g : Graph) (f : FunctionId) : Prop :=
  ∃ c, ReflTransGen g.Includes f c ∧ TransGen g.Includes c c

/-- The native functions that a program calls. -/
def Program.callees (prog : Program) : List String :=
  Statement.calleesIn (prog.locals ++ prog.body) ++ Expr.optionCallees prog.output

/-- The stages with programs that list a function. -/
def Artifact.stagesOf (a : Artifact) (listed : Stage → List FunctionId) (id : FunctionId) :
    List Stage :=
  Stage.all.filter fun t => a.programs.any fun prog => prog.stage = t && (listed t).contains id

/-- The functions that the programs of a build declare are `listed` by their stages; `table` has what
was read from their sources. -/
structure Artifact.Links (a : Artifact) (p : Plan) (table : FunctionId → Option FunctionEntry)
    (listed : Stage → List FunctionId) : Prop where
  /-- Each function is written as it was read, or as it was translated. -/
  transcribed : ∀ id f, table id = some f →
    ∃ native r, p.graph.function? id = some native ∧ f.Writes p table native r
  /-- Different functions took different names. -/
  distinct : ∀ i j f f', table i = some f → table j = some f' → f.claimed = f'.claimed → i = j
  /-- Each function comes once and behind those that it includes. -/
  ordered : ∀ t, NeedsFirst p.graph.Includes (listed t)
  known : ∀ t, ∀ id ∈ listed t, (table id).isSome
  declared : ∀ prog ∈ a.programs, prog.functions =
    (listed prog.stage).filterMap fun id => (table id).map FunctionEntry.code
  /-- What a program calls are functions that it declares. -/
  called : ∀ prog ∈ a.programs, ∀ n ∈ prog.callees,
    ∃ id ∈ listed prog.stage, ∃ f, table id = some f ∧ f.name = n
  /-- What it declares is what it calls and what that includes. -/
  needed : ∀ prog ∈ a.programs, ∀ id, id ∈ listed prog.stage ↔ ∃ c ∈ listed prog.stage, ∃ f,
    table c = some f ∧ f.name ∈ prog.callees ∧ ReflTransGen p.graph.Includes c id
  /-- The build reports the functions that some program declares, each once, with the stages of all of
  these. -/
  reported : ∃ ids : List FunctionId, ids.Nodup ∧
    (∀ id, id ∈ ids ↔ (table id).isSome ∧ a.stagesOf listed id ≠ []) ∧
    a.codes = ids.filterMap fun id =>
      (table id).map fun f => ⟨f.name, f.code, a.stagesOf listed id⟩

/-- A stage asks for a call of a function, whatever the contexts. -/
def Plan.Calls (p : Plan) (roots : List (Stage × NodeId)) (f : FunctionId) : Prop :=
  ∃ r ∈ roots, ∃ m k args, p.resolve r.2 = .ok m ∧
    ReflTransGen p.Draws ⟨.root, m, some r.1⟩ k ∧ p.node k.node = .ok (.call f args)

/-! ### Tables of functions -/

namespace BuildState

variable {p : Plan} {s : BuildState} {active : List Stage} {stage : Stage} {prog : Program}
  {id c : FunctionId} {f : FunctionEntry} {n : String}

theorem mem_namesOf_function :
    n ∈ s.namesOf (.function id) ↔ ∃ f, s.functions.get? id = some f ∧ f.claimed = n := by
  rw [namesOf]
  cases s.functions.get? id with
  | none => simp [Option.elim]
  | some f => simp [Option.elim, eq_comm]

theorem calledAs_eq_some :
    s.calledAs id = some n ↔ ∃ f, s.functions.get? id = some f ∧ f.name = n := Option.map_eq_some_iff

theorem namesOf_function_ne_nil :
    s.namesOf (.function id) ≠ [] ↔ (s.functions.get? id).isSome := by
  rw [namesOf]
  cases s.functions.get? id with
  | none => simp [Option.elim]
  | some f => simp [Option.elim]

/-- In the table of functions each stands behind those that it includes. -/
theorem Transcribed.needsFirst (ht : s.Transcribed p) (hi : IncludesFirst p.graph s.functions) :
    NeedsFirst p.graph.Includes s.functions.keys := by
  have upTo : ∀ {l after}, s.functions.entries = l ++ after →
      NeedsFirst p.graph.Includes (l.map Prod.fst) := by
    intro l
    induction l using List.reverseRecOn with
    | nil => exact fun _ => .nil
    | append_singleton l e ih =>
      intro after he
      rw [List.append_assoc] at he
      have nodup := hi.nodup
      rw [OrderedMap.keys, he, List.map_append] at nodup
      rw [List.map_append]
      refine .snoc (ih he) (fun hmem => ?_) ?_
      · exact (List.nodup_append.1 nodup).2.2 _ hmem _ (.head _) rfl
      rintro i ⟨native, known, hmem⟩
      have found := OrderedMap.get?_of_mem hi.nodup (k := e.1) (a := e.2)
        (he ▸ List.mem_append_right _ (.head _))
      obtain ⟨native', r, known', writes, -⟩ := ht _ _ found
      cases known.symm.trans known'
      refine hi.first l e after he i ?_
      rw [writes.includes]
      exact hmem
  exact upTo (List.append_nil _).symm

/-- A function from which a circle of includes is reached is not in the table. -/
theorem Transcribed.not_entered (ht : s.Transcribed p) (hi : IncludesFirst p.graph s.functions)
    (hc : p.graph.IncludesCycle id) : s.functions.get? id = none := by
  by_contra found
  have order := ht.needsFirst hi
  obtain ⟨c, reach, cycle⟩ := hc
  have mem := OrderedMap.get?_isSome_iff.1 (Option.isSome_iff_ne_none.2 found)
  exact order.irrefl (order.mem_of_reach mem reach) cycle

theorem functions_of_stageProgram (h : s.stageProgram p stage = .ok prog) :
    prog.functions = (s.listed stage).filterMap fun id =>
      (s.functions.get? id).map FunctionEntry.code := by
  obtain ⟨structs, -, h⟩ := bind_ok h
  dsimp only at h
  split at h
  · cases h
  · cases h
    rfl

/-- The stages with programs that list a function are those of its code. -/
theorem stagesOf_of_artifact {a : Artifact} (h : s.artifact p active = .ok a) (id : FunctionId) :
    a.stagesOf s.listed id = s.visibility active fun b => b.functions.contains id := by
  unfold Artifact.stagesOf visibility
  refine List.filter_congr fun t _ => Bool.eq_iff_iff.2 ?_
  rw [List.any_eq_true, Bool.and_eq_true]
  constructor
  · rintro ⟨prog, hprog, ht⟩
    obtain ⟨t', ht', presents⟩ := (of_artifact h).1 prog hprog
    obtain ⟨same, lists⟩ := Bool.and_eq_true_iff.1 ht
    obtain rfl := presents.stage.symm.trans (of_decide_eq_true same)
    exact ⟨List.contains_iff_mem.2 ht', lists⟩
  · rintro ⟨ht, lists⟩
    obtain ⟨prog, hprog, presents⟩ := presented_of_artifact h (List.contains_iff_mem.1 ht)
    exact ⟨prog, hprog, Bool.and_eq_true_iff.2 ⟨decide_eq_true presents.stage, lists⟩⟩

theorem callees_of_presents (h : s.Presents p stage prog) (hi : (s.stages.get stage).inner = [])
    (ho : SilentCode (s.stages.get stage).output) :
    prog.callees = (s.stages.get stage).callees := by
  unfold Program.callees StageBuild.callees StageBuild.collect Statement.calleesIn
  rw [h.locals, h.body, h.output, hi, Statement.collectIn_append, ho.callees, List.append_nil]
  rfl

/-- The native functions that an artifact reports are those that some stage lists. -/
theorem reported_of_artifact {a : Artifact} (hs : s.Named p) (h : s.artifact p active = .ok a) :
    ∃ ids : List FunctionId, ids.Nodup ∧
      (∀ id, id ∈ ids ↔ (s.functions.get? id).isSome ∧ a.stagesOf s.listed id ≠ []) ∧
      a.codes = ids.filterMap fun id =>
        (s.functions.get? id).map fun f => ⟨f.name, f.code, a.stagesOf s.listed id⟩ := by
  refine ⟨s.functions.keys.filter fun id => !(a.stagesOf s.listed id).isEmpty,
    hs.functions.filter _, fun id => ?_, ?_⟩
  · rw [List.mem_filter, OrderedMap.get?_isSome_iff, Bool.not_eq_true', ← Bool.not_eq_true,
      List.isEmpty_iff]
  · rw [(of_artifact h).2.1, nativeCodes, List.filterMap_filter, OrderedMap.keys,
      List.filterMap_map]
    refine List.filterMap_congr ?_
    rintro ⟨id, f⟩ hmem
    simp only [Function.comp, stagesOf_of_artifact h, OrderedMap.get?_of_mem hs.functions hmem]
    cases (s.visibility active fun b => b.functions.contains id).isEmpty <;> rfl

end BuildState

/-! ### Builds -/

namespace Build

open BuildState

variable {p : Plan} {rs : List (Stage × NodeId)} {s : BuildState} {env : Env} {f : FunctionId}

/-- The functions of an artifact that is put together after a run. -/
theorem artifact_links {a : Artifact} (hr : run p rs = .ok s)
    (ha : s.artifact p (rs.map Prod.fst) = .ok a) : a.Links p s.functions.get? s.listed := by
  have links := run_links hr
  obtain ⟨-, -, -, -, named, -⟩ := named_of_run hr
  have transcribed := links.transcribed fun _ _ hf => nomatch hf
  have unlisted : ∀ t, (BuildState.start p).listed t = [] := fun t => by cases t <;> rfl
  have silent : ∀ t, ((BuildState.start p).stages.get t).callees = [] := fun t => by cases t <;> rfl
  have quiet : ∀ t, SilentCode ((BuildState.start p).stages.get t).output := fun t => by
    cases t <;> exact silentCode_none
  have ordered : ∀ t, NeedsFirst p.graph.Includes (s.listed t) := fun t =>
    links.ordered t (unlisted t ▸ .nil)
  have called : ∀ t, ∀ n ∈ (s.stages.get t).callees, s.Offers t n := fun t n hn =>
    (links.offered t n (.inl hn)).resolve_left fun h => nomatch silent t ▸ h
  have code : ∀ prog ∈ a.programs, prog.callees = (s.stages.get prog.stage).callees := by
    intro prog hprog
    obtain ⟨t, -, presents⟩ := (of_artifact ha).1 prog hprog
    obtain rfl := presents.stage
    exact callees_of_presents presents ((run_stands hr).inner_eq_nil _) (links.outputs _ (quiet _))
  -- what a stage lists is called or included by something that is called
  have needed : ∀ t, ∀ id ∈ s.listed t, ∃ c ∈ s.listed t, ReflTransGen p.graph.Includes c id ∧
      ∃ n, s.calledAs c = some n ∧ n ∈ (s.stages.get t).callees := by
    intro t id hid
    obtain ⟨c, reach, ⟨-, hc⟩ | ⟨hc, n, hn, hcall⟩⟩ :=
      (links.needed t id hid).resolve_left fun h => nomatch unlisted t ▸ h
    · cases hc
    · exact ⟨c, hc, reach, n, hn, hcall.resolve_right fun h => nomatch h.2⟩
  refine ⟨fun id f hf => ?_, fun i j f f' hf hf' same => ?_, ordered, fun t id hid => ?_,
    fun prog hprog => ?_, fun prog hprog n hn => ?_, fun prog hprog id => ⟨fun hid => ?_, ?_⟩,
    reported_of_artifact named ha⟩
  · obtain ⟨native, r, known, writes, -⟩ := transcribed id f hf
    exact ⟨native, r, known, writes⟩
  · have both := named.distinct (mem_namesOf_function.2 ⟨f, hf, same⟩)
      (mem_namesOf_function.2 ⟨f', hf', rfl⟩)
    exact Item.function.inj both
  · obtain ⟨c, -, reach, n, hn, -⟩ := needed t id hid
    obtain ⟨f, hf, -⟩ := calledAs_eq_some.1 hn
    have entered : s.namesOf (.function c) ≠ [] := namesOf_function_ne_nil.2 (by rw [hf]; rfl)
    refine namesOf_function_ne_nil.1 (named.entered entered ?_)
    exact reach.lift Item.function fun _ _ ⟨_, known, hmem⟩ => .include known hmem
  · obtain ⟨t, -, hp⟩ := stageProgram_of_artifact ha hprog
    obtain rfl := (presents_of_stageProgram hp).stage
    exact functions_of_stageProgram hp
  · obtain ⟨id, hid, hname⟩ := called _ n (code prog hprog ▸ hn)
    exact ⟨id, hid, calledAs_eq_some.1 hname⟩
  · obtain ⟨c, hc, reach, n, hn, hcall⟩ := needed _ id hid
    obtain ⟨f, hf, rfl⟩ := calledAs_eq_some.1 hn
    exact ⟨c, hc, f, hf, code prog hprog ▸ hcall, reach⟩
  · rintro ⟨c, hc, -, -, -, reach⟩
    exact (ordered _).mem_of_reach hc reach

/-- A function from which a circle of includes is reached is refused when it is read. -/
theorem registerFunction_refused (hp : env.plan = p) (ht : s.Transcribed p)
    (hi : IncludesFirst p.graph s.functions) (hc : p.graph.IncludesCycle f) :
    ∃ e, registerFunction f env s = .error (.refused e) := by
  subst hp
  have reads : Meets (registerFunction f) env s (Law.tables False).ends fun entry s' =>
      Reads env.plan.graph [] s s' ∧ s'.functions.get? f = some entry :=
    registerFunction_reads f hi
  have both := reads.and (registerFunction_transcribing f s rfl)
  unfold Meets at both
  split at both
  · next hr =>
    obtain ⟨⟨reads, found⟩, -, transcribed⟩ := both
    rw [(transcribed ht).not_entered reads.table hc] at found
    cases found
  · next failure hr =>
    cases failure with
    | refused e => exact ⟨e, hr⟩
    | exhausted => exact both.elim

/-- No run succeeds that asks for a call of a function from which a circle of includes is reached. -/
theorem run_ne_ok_of_calls (hk : p.Calls rs f) (hc : p.graph.IncludesCycle f) :
    run p rs ≠ .ok s := by
  intro hr
  obtain ⟨s₀, hanalyze, -⟩ := of_run hr
  obtain ⟨-, quiet, covers, closed⟩ := analyze_covers _ hanalyze
  have surveys := analyze_surveys hanalyze
  have roots := analyze_roots p rs True (rs.map Prod.fst) (absurd trivial) (absurd trivial)
  rw [hanalyze] at roots
  obtain ⟨r, hr, m, k, args, resolved, drawn, call⟩ := hk
  have counted : s₀.cache.Counted k := by
    clear call
    induction drawn with
    | refl => exact covers r hr m resolved
    | tail _ step ih => exact closed _ ih _ step
  have before : ¬(BuildState.start p).cache.Counted k := NodeCache.not_counted_empty
  have entered := (surveys.entered k counted).resolve_left before _ _ call rfl
  have transcribed := (analyze_links _ hanalyze).transcribed fun _ _ hf => nomatch hf
  have none := transcribed.not_entered roots.1.functions hc
  exact absurd (namesOf_function_ne_nil.1 entered) (by rw [none]; exact Bool.false_ne_true)

end Build

section Builds

variable {g : Graph} {request : BuildRequest} {options : BuildOptions} {host : Host} {p : Plan}

/-- A build that ends and does not succeed is refused. -/
theorem refused_of_run_ne_ok (hm : Plan.make g options (request.roots.map Prod.snd) host = .ok p)
    (hf : p.LayoutsFounded) (ht : p.Tellable (request.roots.map Prod.snd))
    (hr : ∀ s, run p request.roots ≠ .ok s) :
    ∃ e, build g request options host = .error (.refused e) := by
  have ends := run_ends hf ht
  unfold build
  dsimp only
  split
  · exact ⟨_, rfl⟩
  rw [hm]
  dsimp only
  generalize run p request.roots = r at ends hr
  match r with
  | .ok s => exact absurd rfl (hr s)
  | .error (.refused e) => exact ⟨e, rfl⟩
  | .error .exhausted => exact ends.elim

/-- The programs of a build declare the functions that they call and those that these include, once
each and each behind what it includes. The functions are those of the graph with all that setups add;
a setup that adds none leaves those of the graph. Where a circle of includes is reached from a
function, reading it is refused at any time, and no build succeeds that asks for a call of it. -/
theorem functions_linked (g : Graph) (request : BuildRequest) (options : BuildOptions) (host : Host) :
    (∀ a, build g request options host = .ok a → ∃ p table listed,
      Plan.make g options (request.roots.map Prod.snd) host = .ok p ∧ a.Links p table listed) ∧
    ∀ p, Plan.make g options (request.roots.map Prod.snd) host = .ok p →
      (host.setup.Keeps Graph.functions → p.graph.functions = g.functions) ∧
      ∀ f, p.graph.IncludesCycle f →
        (∀ (env : Env) (s : BuildState), env.plan = p → s.Transcribed p →
          IncludesFirst p.graph s.functions →
            ∃ e, registerFunction f env s = .error (.refused e)) ∧
        (p.Calls request.roots f → (∀ a, build g request options host ≠ .ok a) ∧
          (p.LayoutsFounded → p.Tellable (request.roots.map Prod.snd) →
            ∃ e, build g request options host = .error (.refused e))) := by
  refine ⟨fun a h => ?_, fun p hm => ⟨Plan.make_graph (fun _ _ => rfl) hm, fun f cycle => ?_⟩⟩
  · obtain ⟨p, s, hmake, hrun, hartifact⟩ := of_build h
    exact ⟨p, _, _, hmake, artifact_links hrun hartifact⟩
  refine ⟨fun env s hp ht hi => registerFunction_refused hp ht hi cycle, fun calls => ?_⟩
  have failed : ∀ s, run p request.roots ≠ .ok s := fun s => run_ne_ok_of_calls calls cycle
  refine ⟨fun a h => ?_, fun hf ht => refused_of_run_ne_ok hm hf ht failed⟩
  obtain ⟨p', s, hm', hr, -⟩ := of_build h
  cases hm.symm.trans hm'
  exact failed s hr

/-- Two functions include a third one, and both are called. -/
def softened : Graph :=
  { Graph.ofNodes [.const .float [1], .call ⟨2⟩ [⟨0⟩], .call ⟨1⟩ [⟨1⟩]] with
    functions := #[
      ⟨"float half_of(float x) \x7b return x * 0.5; \x7d", .glsl, []⟩,
      ⟨"float soften(float x) \x7b return half_of(x) + 0.5; \x7d", .glsl, [⟨0⟩]⟩,
      ⟨"float dim(float x) \x7b return half_of(x); \x7d", .glsl, [⟨0⟩]⟩] }

/-- Two functions include each other, and one of them is called. -/
def sprung : Graph :=
  { Graph.ofNodes [.const .float [1], .call ⟨0⟩ [⟨0⟩]] with
    functions := #[
      ⟨"float rise(float x) \x7b return fall(x); \x7d", .glsl, [⟨1⟩]⟩,
      ⟨"float fall(float x) \x7b return rise(x); \x7d", .glsl, [⟨0⟩]⟩] }

theorem sprung_includesCycle : sprung.IncludesCycle ⟨0⟩ :=
  ⟨⟨0⟩, .refl, .head (b := ⟨1⟩) ⟨_, rfl, .head _⟩ (.single ⟨_, rfl, .head _⟩)⟩

/-- A call of a function of the other dialect. -/
def halved : Graph :=
  { Graph.ofNodes [.const .float [1], .call ⟨0⟩ [⟨0⟩]] with
    functions := #[⟨"float half2(float x) \x7b return x * 0.5; \x7d", .glsl, []⟩] }

/-- A host that can translate the function of `halved`. A name that ends in a digit gets a `_`. -/
def halving : Host :=
  { Host.plain with
    translate := fun _ _ => .ok "fn half2_(x: f32) -> f32 \x7b\n    return (x * 0.5f);\n\x7d\n" }

/-- `softened` and `halved` are built with their functions, and `sprung` is refused. -/
theorem softened_linked :
    (∃ a, build softened ⟨none, some ⟨2⟩, none⟩ (.ofDialect .glsl) = .ok a ∧
      ∃ p table listed, p.graph.functions = softened.functions ∧ a.Links p table listed) ∧
    (∃ a, build halved ⟨none, some ⟨1⟩, none⟩ .standard halving = .ok a ∧
      a.codes.map NativeCode.name = ["half2_"] ∧
      ∃ p table listed, p.graph.functions = halved.functions ∧ a.Links p table listed) ∧
    (∃ e, registerFunction ⟨0⟩ (.root (.ofGraph sprung .standard) [.fragment] .fragment)
      (.start (.ofGraph sprung .standard)) = .error (.refused e)) ∧
    ∃ e, build sprung ⟨none, some ⟨1⟩, none⟩ .standard = .error (.refused e) := by
  have built : (build softened ⟨none, some ⟨2⟩, none⟩ (.ofDialect .glsl)).isOk = true := by
    decide +kernel
  have translated : (build halved ⟨none, some ⟨1⟩, none⟩ .standard halving).toOption.map
      (fun a => a.codes.map NativeCode.name) = some ["half2_"] := by
    decide +kernel
  have make : Plan.make sprung .standard [⟨1⟩] = .ok (.ofGraph sprung .standard) := rfl
  have calls : (Plan.ofGraph sprung .standard).Calls [(.fragment, ⟨1⟩)] ⟨0⟩ :=
    ⟨_, .head _, ⟨1⟩, _, _, rfl, .refl, rfl⟩
  have quiet : Host.plain.setup.Keeps Graph.functions :=
    Custom.setup_keeps (fun _ _ => rfl) fun _ _ _ => rfl
  have linked := functions_linked softened ⟨none, some ⟨2⟩, none⟩ (.ofDialect .glsl) .plain
  have linked' := functions_linked halved ⟨none, some ⟨1⟩, none⟩ .standard halving
  obtain ⟨refuses, fails⟩ := ((functions_linked sprung ⟨none, some ⟨1⟩, none⟩ .standard .plain).2 _
    make).2 ⟨0⟩ sprung_includesCycle
  refine ⟨?_, ?_, refuses _ _ rfl (fun _ _ hf => nomatch hf) .empty, (fails calls).2 ?_ (.inl ?_)⟩
  · obtain ⟨a, ok⟩ := ok_of_isOk built
    obtain ⟨p, table, listed, hm, links⟩ := linked.1 a ok
    exact ⟨a, ok, p, table, listed, (linked.2 p hm).1 quiet, links⟩
  · obtain ⟨a, found, names⟩ := Option.map_eq_some_iff.1 translated
    have ok := ok_of_toOption found
    obtain ⟨p, table, listed, hm, links⟩ := linked'.1 a ok
    exact ⟨a, ok, names, p, table, listed, (linked'.2 p hm).1 quiet, links⟩
  · exact Plan.layoutsFounded_of_empty rfl
  · exact Plan.acyclic_of_refersBack (by decide +kernel)

end Builds

/-! ## The names of included functions -/

/-- The body of a function is written as it stands. -/
theorem Native.Declaration.code_body (f : Native.Declaration) (name : String) :
    ∃ head, f.code name = head ++ f.body := by
  unfold code
  split
  · exact ⟨_, rfl⟩
  · exact ⟨_, rfl⟩

/-- Some function was renamed when it was translated, and has this name now. -/
def BuildState.Renames (s : BuildState) (n : String) : Prop :=
  ∃ id f, s.functions.get? id = some f ∧ f.name = n ∧ f.claimed ≠ n

/-- A function can have a name as it is: the name is an identifier, no dialect and no struct has it,
and no other item took it. -/
structure BuildState.Spares (p : Plan) (s : BuildState) (id : FunctionId) (n : String) : Prop where
  identifier : Name.sanitize n = n
  unreserved : (BuildState.start p).globals.isUsed n = false
  alone : ∀ i, n ∈ s.namesOf i → i = .function id

namespace Build

open BuildState

variable {p : Plan} {rs : List (Stage × NodeId)} {s : BuildState} {id : FunctionId}
  {e : FunctionEntry} {n : String}

/-- A function took the name that it asked for exactly when it can have it, unless a translated one
came to have it before. -/
theorem claimed_eq_iff (h : run p rs = .ok s) (he : s.functions.get? id = some e)
    (near : s.globals.Near n e.claimed) :
    (e.claimed = n → s.Spares p id n) ∧ (s.Spares p id n → ¬s.Renames n → e.claimed = n) := by
  have enters := (run_links h).enters
  obtain ⟨-, -, -, -, named, -⟩ := named_of_run h
  have own : e.claimed ∈ s.namesOf (.function id) := mem_namesOf_function.2 ⟨e, he, rfl⟩
  constructor
  · rintro rfl
    refine ⟨near.sanitize_eq, ?_, fun i hi => named.distinct hi own⟩
    rcases enters.items (.function id) with same | ⟨-, free⟩
    · rw [same, namesOf_start] at own
      cases own
    · exact free _ own
  · rintro ⟨identifier, unreserved, alone⟩ kept
    have used := near.1
    rw [identifier] at used
    -- what takes the name is an item, no other item took it, and no function was renamed to it
    rcases enters.spent n used with reserved | ⟨i, hi⟩
    · rw [unreserved] at reserved
      cases reserved
    have taken : n ∈ s.namesOf i := by
      cases i with
      | function j =>
        rcases mem_spelledAs_function.1 hi with hi | hi
        · exact hi
        · obtain ⟨f, hf, rfl⟩ := calledAs_eq_some.1 hi
          by_contra other
          exact kept ⟨j, f, hf, rfl, fun same => other (mem_namesOf_function.2 ⟨f, hf, same⟩)⟩
      | _ => exact hi
    obtain ⟨e', he', rfl⟩ := mem_namesOf_function.1 (alone i taken ▸ taken)
    cases he.symm.trans he'
    rfl

end Build

open BuildState

variable {g : Graph} {request : BuildRequest} {options : BuildOptions} {host : Host} {a : Artifact}

/-- In its own dialect a function is written under the name that it took, as it stands. -/
theorem FunctionEntry.Writes.own {p : Plan} {table : FunctionId → Option FunctionEntry}
    {e : FunctionEntry} {native : NativeFunction} {f : Native.Declaration}
    (h : e.Writes p table native f) (hd : native.dialect = p.options.dialect) :
    e.name = e.claimed ∧ e.code = f.code e.name := by
  obtain ⟨included, -, renders⟩ := h.rendered
  rcases renders.written with ⟨-, written⟩ | ⟨glsl, wgsl, -⟩
  · obtain ⟨name, code⟩ := Prod.mk.inj written
    exact ⟨name, by rw [code, name]⟩
  · rw [glsl, wgsl] at hd
    cases hd

/-- In a build a function is declared with those that it includes, directly or through others. Written
in the dialect of the build, its body stands as it is, and an included function keeps the name that it
has in its source exactly when it can have it, where no translated function came to have this name.
The functions are those of the graph with all that setups add; a setup that adds none leaves those of
the graph. -/
theorem included_names (h : build g request options host = .ok a) : ∃ p s,
    Plan.make g options (request.roots.map Prod.snd) host = .ok p ∧ run p request.roots = .ok s ∧
      s.artifact p (request.roots.map Prod.fst) = .ok a ∧
      (host.setup.Keeps Graph.functions → p.graph.functions = g.functions) ∧
        ∀ outer inner, TransGen p.graph.Includes outer inner →
          ∀ eo, s.functions.get? outer = some eo →
          (∃ native fo, p.graph.function? outer = some native ∧
            eo.Writes p s.functions.get? native fo ∧
            (native.dialect = options.dialect → ∃ head, eo.code = head ++ fo.body)) ∧
          ∃ native f e, p.graph.function? inner = some native ∧ s.functions.get? inner = some e ∧
            e.Writes p s.functions.get? native f ∧
            (∀ t, outer ∈ s.listed t → inner ∈ s.listed t) ∧
            (native.dialect = options.dialect →
              (e.name = f.name → s.Spares p inner f.name) ∧
              (s.Spares p inner f.name → ¬s.Renames f.name → e.name = f.name)) := by
  obtain ⟨p, s, hmake, hrun, hartifact⟩ := of_build h
  refine ⟨p, s, hmake, hrun, hartifact, Plan.make_graph (fun _ _ => rfl) hmake,
    fun outer inner reach eo found => ?_⟩
  have links := run_links hrun
  have transcribed := links.transcribed fun _ _ hf => nomatch hf
  obtain ⟨-, -, -, -, named, -⟩ := named_of_run hrun
  have dialect : p.options.dialect = options.dialect :=
    congrArg BuildOptions.dialect (Plan.settings_of_make hmake).1
  have entered : s.namesOf (.function outer) ≠ [] := namesOf_function_ne_nil.2 (found ▸ rfl)
  have needed : ReflTransGen p.Needs (.function outer) (.function inner) :=
    reach.to_reflTransGen.lift Item.function fun _ _ ⟨_, hf, hmem⟩ => .include hf hmem
  have readInner := namesOf_function_ne_nil.1 (named.entered entered needed)
  obtain ⟨e, he⟩ := Option.isSome_iff_exists.1 readInner
  obtain ⟨native, fo, hnative, writes, -⟩ := transcribed outer eo found
  obtain ⟨native', f, hnative', writes', near⟩ := transcribed inner e he
  refine ⟨⟨native, fo, hnative, writes, fun own => ?_⟩, native', f, e, hnative', he, writes',
    fun t hlisted => ?_, fun own => ?_⟩
  · rw [(writes.own (own.trans dialect.symm)).2]
    exact fo.code_body eo.name
  · exact ((artifact_links hrun hartifact).ordered t).mem_of_reach hlisted reach.to_reflTransGen
  · rw [(writes'.own (own.trans dialect.symm)).1]
    exact claimed_eq_iff hrun he near

/-- Two functions have one name in their sources; the second is included by a third one. -/
def helped : Graph :=
  { Graph.ofNodes [.const .float [1], .call ⟨0⟩ [⟨0⟩], .call ⟨2⟩ [⟨0⟩], .operator .add ⟨1⟩ ⟨2⟩] with
    functions := #[
      ⟨"float helper(float x) \x7b return x * 2.0; \x7d", .glsl, []⟩,
      ⟨"float helper(float x) \x7b return x * 3.0; \x7d", .glsl, []⟩,
      ⟨"float outer(float x) \x7b return helper(x) + 1.0; \x7d", .glsl, [⟨1⟩]⟩] }

/-- The names of some functions after a run. -/
def functionNames (ids : List FunctionId) : Except Failure BuildState → List (Option String)
  | .ok s => ids.map fun id => (s.functions.get? id).map FunctionEntry.name
  | .error _ => []

/-- The functions of `helped` after a run. -/
theorem helped_functions : functionNames [⟨0⟩, ⟨1⟩, ⟨2⟩]
    (run (.ofGraph helped (.ofDialect .glsl)) [(.fragment, ⟨3⟩)]) =
      [some "helper", some "helper_1", some "outer"] := by
  decide +kernel

theorem make_helped : Plan.make helped (.ofDialect .glsl) [⟨3⟩] =
    .ok (.ofGraph helped (.ofDialect .glsl)) := rfl

theorem built_helped :
    (build helped ⟨none, some ⟨3⟩, none⟩ (.ofDialect .glsl)).isOk = true := by
  decide +kernel

/-- What is said of included functions holds of the build of `helped`. -/
theorem helped_names : ∃ a, build helped ⟨none, some ⟨3⟩, none⟩ (.ofDialect .glsl) = .ok a ∧
    ∃ p s, Plan.make helped (.ofDialect .glsl) [⟨3⟩] = .ok p ∧ run p [(.fragment, ⟨3⟩)] = .ok s ∧
      ∀ eo, s.functions.get? ⟨2⟩ = some eo →
        ∃ native f e, helped.function? ⟨1⟩ = some native ∧ s.functions.get? ⟨1⟩ = some e ∧
          e.Writes p s.functions.get? native f ∧ (e.name = f.name → s.Spares p ⟨1⟩ f.name) ∧
            (s.Spares p ⟨1⟩ f.name → ¬s.Renames f.name → e.name = f.name) := by
  obtain ⟨a, ok⟩ := ok_of_isOk built_helped
  obtain ⟨p, s, hmake, hrun, -, -, names⟩ := included_names ok
  refine ⟨a, ok, p, s, hmake, hrun, fun eo found => ?_⟩
  obtain rfl : Plan.ofGraph helped (.ofDialect .glsl) = p := Except.ok.inj (make_helped.symm.trans hmake)
  have step : helped.Includes ⟨2⟩ ⟨1⟩ := ⟨_, rfl, .head _⟩
  obtain ⟨-, native, f, e, known, he, writes, -, kept⟩ := names ⟨2⟩ ⟨1⟩ (.single step) eo found
  cases known
  exact ⟨_, f, e, rfl, he, writes, kept rfl⟩

/-- In the build of `helped` the included function loses its name to another one, so the call in the
body of the third means that one. -/
theorem helped_redirected :
    (build helped ⟨none, some ⟨3⟩, none⟩ (.ofDialect .glsl)).isOk = true ∧
    helped.Includes ⟨2⟩ ⟨1⟩ ∧
    (∃ native f, helped.function? ⟨1⟩ = some native ∧
      Native.Declaration.read .glsl native.source = .ok f ∧ f.name = "helper") ∧
    ∃ p s, Plan.make helped (.ofDialect .glsl) [⟨3⟩] = .ok p ∧ run p [(.fragment, ⟨3⟩)] = .ok s ∧
      (s.functions.get? ⟨2⟩).isSome ∧ s.calledAs ⟨0⟩ = some "helper" ∧
        s.calledAs ⟨1⟩ = some "helper_1" := by
  have source : (Native.Declaration.read .glsl
      "float helper(float x) \x7b return x * 3.0; \x7d").toOption.map Native.Declaration.name =
        some "helper" := by decide +kernel
  have names := helped_functions
  cases hr : run (.ofGraph helped (.ofDialect .glsl)) [(.fragment, ⟨3⟩)] with
  | error _ =>
    rw [hr] at names
    cases names
  | ok s =>
    rw [hr] at names
    simp only [functionNames, List.map_cons, List.map_nil, List.cons.injEq, Option.map_eq_some_iff]
      at names
    obtain ⟨⟨e, he, hname⟩, ⟨e', he', hname'⟩, ⟨e'', he'', -⟩, -⟩ := names
    refine ⟨built_helped, ⟨_, rfl, .head _⟩, ?_, _, s, rfl, hr, he'' ▸ rfl, ?_, ?_⟩
    · obtain ⟨f, hf, hname⟩ := Option.map_eq_some_iff.1 source
      exact ⟨_, f, rfl, ok_of_toOption hf, hname⟩
    · rw [calledAs, he, ← hname]
      rfl
    · rw [calledAs, he', ← hname']
      rfl

end ShaderGraph
