import ShaderGraph.Proofs.ProgramNames
import ShaderGraph.Proofs.ReadingCode
import ShaderGraph.Proofs.ReadingOnce
import ShaderGraph.Proofs.VariablesBuild

/-!
# Builds of values

What the generator makes of a graph of values reads as what the graph stands for
(`Reading.generator_serves`), so the output of each program does (`output_unfolded`). The condition
on varyings is needed: a varying under two contexts is one varying, and carries one value
(`lentToVarying_differs`).
-/

namespace ShaderGraph

open Build Plan

namespace Reading

variable {R : Reading} {around : List NodeId} {env : Env} {C : Prop} {s s' : BuildState}
  {m root : NodeId} {t : Stage} {e : Expr}

/-! ### All nodes -/

/-- A visit is remembered, which nothing that is read depends on. -/
theorem recordVisit_gives {code : Option Expr} :
    R.Gives around env C (recordVisit s m code) fun _ => True := by
  intro s' _
  have lists : s'.Lists R.plan { s' with visits := visitAt env s m code :: s'.visits } :=
    ⟨.of_eq rfl rfl rfl rfl rfl, rfl⟩
  show R.Brings env.stage [] C True s' { s' with visits := visitAt env s m code :: s'.visits }
  exact ⟨.of_lists lists (.of_eq rfl rfl rfl) (fun _ => rfl) fun _ => rfl, fun _ _ _ => trivial⟩

/-- The code of each node that evaluation reaches reads as what the node stands for. -/
theorem generator_serves (hp : R.plan.OfValues) (hsteady : R.plan.SteadyVaryings R.roots)
    (hcarries : R.Carries) (fuel : Nat)
    {c : NodeId} (hr : ∀ m, R.plan.resolve c = .ok m → R.plan.Reaches R.roots ⟨m, around⟩) :
    R.Serves around env (generator fuel) c := by
  induction fuel generalizing around env c with
  | zero => exact fun _ _ _ _ => trivial
  | succ fuel ih =>
    intro m hm
    show R.Gives around env True (emitNode (generator fuel) m) _
    refine .resolve fun k hk => ?_
    -- whether `m` is the node itself or stands in its place, `k` is built
    have built : R.plan.resolve c = .ok k := by
      rcases hm with rfl | hm
      · exact hk
      · exact hm.trans (by rw [← hk, resolve_of_resolve hm])
    have reached := hr k built
    intro s hs
    rw [meets_bind, meets_get]
    have node : R.Gives around env True (located k (Build.node k >>= generateNode (generator fuel) k))
        fun e => ∀ x, e = some x → R.Shows env.stage around k x := by
      refine .located (.node fun n hn => ?_)
      exact generateNode_gives hp hsteady hcarries (resolve_of_resolve hk) hn reached fun c' outer env' hstep =>
        ih fun m' hm' => reached.step (hstep m' hm')
    have visited : R.Gives around env True (do
        let code ← located k (Build.node k >>= generateNode (generator fuel) k)
        recordVisit s k code
        return code) fun e => ∀ x, e = some x → R.Shows env.stage around c x := by
      refine node.bind fun code => recordVisit_gives.bind fun _ => .pure ?_
      rintro ⟨⟨-, shows⟩, -⟩ x hx
      obtain ⟨u, hu, reads⟩ := shows x hx
      exact ⟨u, (unfolded_resolve built).trans hu, reads⟩
    exact visited s hs

/-! ### Stages -/

/-- The output of a stage reads as what its root stands for, as a color or a position. -/
theorem generateRoot_gives (hp : R.plan.OfValues) (hsteady : R.plan.SteadyVaryings R.roots)
    (hcarries : R.Carries) (hroot : root ∈ R.roots) :
    R.Gives [] env True (generateRoot t root) fun output =>
      ∀ e, output = some e → R.ShowsAs env.stage [] root .vec4 e := by
  have serves : ∀ fuel, R.Serves [] env (generator fuel) root :=
    fun fuel => generator_serves hp hsteady hcarries fuel fun m hm => .root hroot hm
  have value : ∀ fuel, R.Gives [] env True (some <$> (generator fuel).value root .vec4)
      fun output => ∀ e, output = some e → R.ShowsAs env.stage [] root .vec4 e := by
    refine fun fuel => ((serves fuel).value hp).map ?_
    rintro e - shows _ ⟨⟩
    exact shows
  refine .read ?_
  cases t with
  | vertex => exact value _
  | fragment => exact value _
  | compute =>
    have none : ∀ {C : Prop}, R.Gives [] env C (pure (none : Option Expr))
        fun output => ∀ e, output = some e → R.ShowsAs env.stage [] root .vec4 e :=
      .pure fun _ e he => nomatch he
    exact (serves _).emit.bind fun code =>
      .ite (fun _ => ((Gives.typeOf hp root).discard).bind fun _ => none) fun _ => none

/-- After a stage was generated its output reads as what its root stands for. -/
structure Ends (R : Reading) (t : Stage) (root : NodeId) (s s' : BuildState) : Prop where
  begins : ∀ {env}, R.Begins [] env s → R.Begins [] env s'
  others : ∀ u, u ≠ t → (s'.stages.get u).output = (s.stages.get u).output
  inner : ∀ u, (s.stages.get u).inner = [] → (s'.stages.get u).inner = []
  spends : Spends t [] [] s s'
  fits : R.Fits s' → R.Fits s
  recalls : R.Fits s' → R.Recalls s → R.Recalls s'
  shows : R.Fits s' → R.Recalls s → ∀ e, (s'.stages.get t).output = some e →
    R.ShowsAs t [] root .vec4 e

/-- Generation of a stage from its root. -/
theorem generateStage_ends (hp : R.plan.OfValues) (hsteady : R.plan.SteadyVaryings R.roots)
    (hcarries : R.Carries) (hroot : root ∈ R.roots) (hs : R.Begins [] env s) :
    Meets (generateStage root) env s (fun _ => True) fun _ s' => R.Ends env.stage root s s' := by
  unfold generateStage
  rw [meets_bind]
  show Meets (generateRoot env.stage root >>= _) env s _ _
  rw [meets_bind]
  refine (generateRoot_gives hp hsteady hcarries hroot s hs).imp fun output s₁ brings => ?_
  rw [meets_modifyHere]
  have goes := brings.goes
  have back : R.Fits { s₁ with stages := s₁.stages.modify env.stage fun b => { b with output := output } } →
      R.Fits s₁ := fun hf => hf.modify (fun _ => rfl) (fun _ => rfl) fun _ hn => hn
  have none : Statement.nested [] ⊆ R.code.body env.stage := List.nil_subset _
  have ended : Spends env.stage [] [] s₁
      { s₁ with stages := s₁.stages.modify env.stage fun b => { b with output := output } } := by
    refine .of_same (fun {u n} hn => ?_) (fun u => s₁.stages.map_get_modify env.stage u fun _ => rfl)
      fun u => s₁.stages.map_get_modify env.stage u fun _ => rfl
    exact (s₁.stages.map_get_modify env.stage u (g := StageBuild.names)
      (f := fun b => { b with output := output }) fun _ => rfl).symm ▸ hn
  refine ⟨fun hb => ?_, fun u hu => ?_, fun u hu => ?_, goes.spends.trans ended,
    fun hf => goes.fits none (back hf), fun hf hr => ?_, fun hf hr e he => ?_⟩
  · exact (hb.mono goes).move (.of_eq rfl rfl rfl rfl rfl) (.of_eq rfl rfl rfl)
  · rw [PerStage.get_modify, if_neg hu]
    exact goes.output u
  · have same := s₁.stages.map_get_modify env.stage u
      (f := fun b => { b with output := output }) (g := StageBuild.inner) fun _ => rfl
    refine same.trans ?_
    rw [StageBuild.inner_eq_nil_iff, goes.blocks u, ← StageBuild.inner_eq_nil_iff]
    exact hu
  · refine (goes.recalls none (back hf) trivial hr).keep (.of_eq rfl rfl rfl rfl rfl)
      (.refl _) (fun _ => rfl) (fun u => ?_) (fun u ha => ?_) .inl
    · exact s₁.stages.map_get_modify env.stage u fun _ => rfl
    · rwa [s₁.stages.map_get_modify env.stage u (g := StageBuild.nested)
        (f := fun b => { b with output := output }) fun _ => rfl]
  · rw [PerStage.get_modify, if_pos rfl] at he
    exact brings.gives (back hf) trivial hr e he

/-- After the stages were generated, one after the other, the output of each reads as what its root
stands for. -/
theorem generate_shows (hp : R.plan.OfValues) (hsteady : R.plan.SteadyVaryings R.roots)
    (hcarries : R.Carries) {rs : List (Stage × NodeId)} (hd : (rs.map Prod.fst).Nodup)
    (hroots : ∀ r ∈ rs, r.2 ∈ R.roots)
    (hs : ∀ r ∈ rs, R.Begins [] (Env.root R.plan R.active r.1) s)
    (h : atRoots R.plan R.active generateStage rs s = .ok s') :
    (∀ u, u ∉ rs.map Prod.fst → (s'.stages.get u).output = (s.stages.get u).output) ∧
      (∀ u, (s.stages.get u).inner = [] → (s'.stages.get u).inner = []) ∧
      Spends .vertex [] [] s s' ∧ (R.Fits s' → R.Fits s) ∧ (R.Fits s' → R.Recalls s →
        R.Recalls s' ∧ ∀ r ∈ rs, ∀ e, (s'.stages.get r.1).output = some e →
          R.ShowsAs r.1 [] r.2 .vec4 e) := by
  induction rs generalizing s with
  | nil =>
    cases h
    exact ⟨fun _ _ => rfl, fun _ hu => hu, .refl _, id, fun _ hr => ⟨hr, fun _ hr => nomatch hr⟩⟩
  | cons r rest ih =>
    obtain ⟨t, root⟩ := r
    obtain ⟨fresh, distinct⟩ := List.nodup_cons.1 hd
    have ends := generateStage_ends hp hsteady hcarries (hroots _ (.head _)) (hs _ (.head _))
    rw [atRoots, atRoot] at h
    unfold Meets at ends
    generalize hstep : generateStage root (Env.root R.plan R.active t) s = r at h ends
    cases r with
    | error f => cases h
    | ok r =>
      obtain ⟨_, s₁⟩ := r
      obtain ⟨others, inner, spends, fits, further⟩ := ih distinct (fun r hr => hroots r (.tail _ hr))
        (fun r hr => ends.begins (hs r (.tail _ hr))) h
      refine ⟨fun u hu => ?_, fun u hu => inner u (ends.inner u hu), ends.spends.elsewhere.trans spends,
        fun hf => ends.fits (fits hf), fun hf hrec => ?_⟩
      · obtain ⟨hne, hrest⟩ := not_or.1 fun h => hu (List.mem_cons.2 h)
        exact (others u hrest).trans (ends.others u hne)
      · obtain ⟨recalls, shows⟩ := further hf (ends.recalls (fits hf) hrec)
        refine ⟨recalls, fun r hr e he => ?_⟩
        rcases List.mem_cons.1 hr with rfl | hr
        · exact ends.shows (fits hf) hrec e (others t fresh ▸ he)
        · exact shows r hr e he

end Reading

/-! ### Builds -/

/-- The statements of the entry points of a build. -/
def Artifact.code (a : Artifact) : Code where
  locals t := (a.programs.find? fun prog => prog.stage = t).elim [] fun prog => prog.locals
  body t := (a.programs.find? fun prog => prog.stage = t).elim [] fun prog =>
    Statement.nested prog.body

/-- The statements of a build are those that its stages collected. -/
theorem BuildState.code_of_artifact {p : Plan} {s : BuildState} {active : List Stage} {a : Artifact}
    (h : s.artifact p active = .ok a) (t : Stage) :
    (t ∈ active ∧ a.code.locals t = (s.stages.get t).locals ∧
      a.code.body t = Statement.nested (s.stages.get t).outer.statements) ∨
      t ∉ active ∧ a.code.locals t = [] ∧ a.code.body t = [] := by
  obtain ⟨programs, -, -⟩ := of_artifact h
  have locals : a.code.locals t =
      (a.programs.find? fun prog => prog.stage = t).elim [] fun prog => prog.locals := rfl
  have body : a.code.body t = (a.programs.find? fun prog => prog.stage = t).elim []
      fun prog => Statement.nested prog.body := rfl
  rw [locals, body]
  cases hfind : a.programs.find? fun prog => prog.stage = t with
  | none =>
    refine .inr ⟨fun ht => ?_, rfl, rfl⟩
    obtain ⟨prog, hprog, presents⟩ := presented_of_artifact h ht
    have other := List.find?_eq_none.1 hfind prog hprog
    exact other (decide_eq_true presents.stage)
  | some prog =>
    obtain ⟨t', ht', presents⟩ := programs prog (List.mem_of_find?_eq_some hfind)
    have stage : prog.stage = t := by simpa using List.find?_some hfind
    obtain rfl : t' = t := presents.stage.symm.trans stage
    exact .inl ⟨ht', presents.locals, congrArg Statement.nested presents.body⟩

/-- A stage has one root. -/
theorem BuildRequest.nodup_stages (request : BuildRequest) : (request.roots.map Prod.fst).Nodup := by
  have sublist : ∀ ts : List Stage, List.Sublist
      ((ts.filterMap fun t => (request.root? t).map fun id => (t, id)).map Prod.fst) ts := by
    intro ts
    induction ts with
    | nil => exact .slnil
    | cons t rest ih =>
      rw [List.filterMap_cons]
      cases request.root? t with
      | none => exact ih.cons t
      | some root => exact ih.cons_cons t
  exact (sublist Stage.all).nodup (by decide)

/-- After generation a local got no more than its value. -/
theorem Reading.Spends.given_le {s s' : BuildState} {p : Plan} (h : Spends .vertex [] [] s s')
    (hs : (BuildState.start p).Surveys p s) (t : Stage) (n : String) :
    (s'.stages.get t).given.count n ≤ 2 := by
  have none : (s.stages.get t).given = [] := by
    have body : (s.stages.get t).body = ((BuildState.start p).stages.get t).body := congrFun hs.bodies t
    rw [StageBuild.given, StageBuild.nested, StageBuild.collect,
      show (s.stages.get t).locals = _ from congrArg EntryPoint.locals body,
      show (s.stages.get t).inner = _ from congrArg EntryPoint.inner body,
      show (s.stages.get t).outer = _ from congrArg EntryPoint.outer body]
    cases t <;> rfl
  have given := h.given t n
  rw [none] at given
  simp only [Statement.givenIn, Statement.nested, Statement.collectIn, List.flatMap_nil,
    List.count_nil, ite_self, Nat.add_zero, Nat.zero_add] at given
  split at given <;> omega

/-- Before generation nothing is remembered. -/
theorem Reading.recalls_start {R : Reading} {s : BuildState} {p : Plan}
    (hs : (BuildState.start p).Surveys p s) (hq : (BuildState.start p).Quiet s) : R.Recalls s where
  bound hb := by
    rw [hq.bound] at hb
    cases hb
  property {t name v} hv := by
    rw [show (s.stages.get t).properties = ((BuildState.start p).stages.get t).properties from
      congrArg EntryPoint.properties (congrFun hs.bodies t)] at hv
    cases t <;> cases hv
  written hw := by
    rw [hs.written] at hw
    cases hw
  assigned t := by
    have inner : (s.stages.get t).inner = ((BuildState.start p).stages.get t).inner :=
      congrArg EntryPoint.inner (congrFun hs.bodies t)
    have outer : (s.stages.get t).outer = ((BuildState.start p).stages.get t).outer :=
      congrArg EntryPoint.outer (congrFun hs.bodies t)
    rw [StageBuild.nested, StageBuild.collect, inner, outer]
    cases t <;> exact .nil

variable {g : Graph} {request : BuildRequest} {options : BuildOptions} {host : Host} {a : Artifact}
  {prog : Program} {e : Expr} {p : Plan}

/-- The code of a build of values, where no varying carries different values under different contexts,
has a single reading, and there the output of each program is what the root of its stage stands for. -/
theorem reading_of_build (h : build g request options host = .ok a)
    (hmake : Plan.make g options (request.roots.map Prod.snd) host = .ok p) (hp : p.OfValues)
    (hsteady : p.SteadyVaryings (request.roots.map Prod.snd)) :
    ∃ s carries, run p request.roots = .ok s ∧ s.Named p ∧
      { a.code with carries := carries }.Definite ∧
        ∀ prog ∈ a.programs, ∀ e, prog.output = some e → ∃ root u,
          (prog.stage, root) ∈ request.roots ∧
            p.unfoldedAs s.naming prog.stage [] root .vec4 = some u ∧
              { a.code with carries := carries }.Reads prog.stage e u := by
  obtain ⟨p', s, hmake', hrun, hartifact⟩ := of_build h
  cases hmake.symm.trans hmake'
  obtain ⟨s₀, hanalyze, hgenerate⟩ := of_run hrun
  let active := request.roots.map Prod.fst
  let roots := request.roots.map Prod.snd
  -- a varying carries what its source stands for where it is met
  let carries : String → Expr → Prop := fun n u => ∃ id source around,
    (∃ name interpolation sampling, p.node id = .ok (.varying source name interpolation sampling)) ∧
      p.Reaches roots ⟨id, around⟩ ∧ s.naming.varying? id = some n ∧
        p.unfolded s.naming .vertex around source = some u
  let R : Reading := ⟨p, roots, active, s.naming, { a.code with carries := carries }⟩
  have hcarries : R.Carries := fun hn hr hname hu => ⟨_, _, _, ⟨_, _, _, hn⟩, hr, hname, hu⟩
  have surveys := analyze_surveys hanalyze
  obtain ⟨-, quiet, -⟩ := analyze_covers _ hanalyze
  have named := surveys.named (BuildState.named_start p)
  have begins : ∀ r ∈ request.roots, R.Begins [] (Env.root p active r.1) s₀ := fun r hr =>
    ⟨⟨rfl, rfl, analyze_lexical hp hanalyze, trivial⟩, List.mem_map_of_mem hr, rfl, named⟩
  have inner : ∀ t, (s₀.stages.get t).inner = [] := by
    intro t
    refine (congrArg EntryPoint.inner (congrFun surveys.bodies t)).trans ?_
    cases t <;> rfl
  obtain ⟨-, closed, spends, -, shown⟩ := Reading.generate_shows (R := R) hp hsteady hcarries
    request.nodup_stages (fun r hr => List.mem_map_of_mem hr) begins hgenerate
  have code := BuildState.code_of_artifact hartifact
  have nested : ∀ t, (s.stages.get t).nested = Statement.nested (s.stages.get t).outer.statements := by
    intro t
    rw [StageBuild.nested, StageBuild.collect, closed t (inner t)]
    rfl
  have fits : R.Fits s := by
    refine ⟨⟨id, id, id⟩, fun t ht => ?_, fun t ht => ?_⟩
    · have locals := ((code t).resolve_right fun hn => hn.1 ht).2.1
      exact fun _ hst => locals.symm ▸ hst
    · have body := ((code t).resolve_right fun hn => hn.1 ht).2.2
      exact fun _ hst => body.symm ▸ nested t ▸ hst
  have named' : s.Named p := (generate_avoids named hgenerate).enters.named named
  obtain ⟨recalls, shows⟩ := shown fits (Reading.recalls_start surveys quiet)
  have definite : R.code.Definite := by
    refine ⟨fun t n => ?_, ?_, fun {n value} hst => ?_⟩
    · show (((a.code.locals t).filterMap Statement.own?).flatMap _).count n +
        ((a.code.body t).flatMap Statement.settles).count n ≤ 2
      rcases code t with ⟨-, locals, body⟩ | ⟨-, locals, body⟩
      · rw [locals, body]
        have settled := Statement.count_settledIn_le (n := n) (s.stages.get t).outer.statements
        have given : (s.stages.get t).given.count n ≤ 2 := spends.given_le surveys t n
        rw [StageBuild.given, List.count_append, nested] at given
        unfold Statement.settledIn Statement.givenIn at settled
        omega
      · rw [locals, body]
        exact Nat.zero_le _
    · rintro n u u' ⟨id, source, around, ⟨_, _, _, hn⟩, hr, hname, hu⟩
        ⟨id', source', around', ⟨_, _, _, hn'⟩, hr', hname', hu'⟩
      -- the name of a varying is that of one node
      have same : id = id' := by
        have own := List.mem_of_mem_head? (Option.mem_def.2 hname)
        have own' := List.mem_of_mem_head? (Option.mem_def.2 hname')
        exact Item.varying.inj (named'.distinct own own')
      subst same
      cases hn.symm.trans hn'
      have steady := (hsteady hn hr hr').2 s.naming
      exact Option.some.inj (hu.symm.trans (steady.trans hu'))
    · refine recalls.assigned .vertex rfl ?_
      rcases code .vertex with ⟨-, -, body⟩ | ⟨-, -, body⟩
      · exact nested .vertex ▸ body ▸ hst
      · rw [show R.code.body .vertex = [] from body] at hst
        cases hst
  refine ⟨s, carries, hrun, named', definite, fun prog hprog e he => ?_⟩
  obtain ⟨programs, -, -⟩ := BuildState.of_artifact hartifact
  obtain ⟨t, ht, presents⟩ := programs prog hprog
  obtain rfl : t = prog.stage := presents.stage.symm
  obtain ⟨⟨_, root⟩, hroot, rfl⟩ := List.mem_map.1 ht
  obtain ⟨u, hu, reads⟩ := shows _ hroot e (presents.output ▸ he)
  exact ⟨root, u, hroot, hu, reads⟩

/-- In a build of a graph of values, where no varying carries different values under different
contexts, the output of each program reads as what the root of its stage stands for, and as nothing
else. -/
theorem output_unfolded (h : build g request options host = .ok a)
    (hmake : Plan.make g options (request.roots.map Prod.snd) host = .ok p) (hp : p.OfValues)
    (hsteady : p.SteadyVaryings (request.roots.map Prod.snd)) (hprog : prog ∈ a.programs)
    (he : prog.output = some e) :
    ∃ s root u, run p request.roots = .ok s ∧ (prog.stage, root) ∈ request.roots ∧
      p.unfoldedAs s.naming prog.stage [] root .vec4 = some u ∧
        ∀ u', a.code.Reads prog.stage e u' ↔ u' = u := by
  obtain ⟨s, carries, hrun, -, definite, outputs⟩ := reading_of_build h hmake hp hsteady
  obtain ⟨root, u, hroot, hu, reads⟩ := outputs prog hprog e he
  refine ⟨s, root, u, hrun, hroot, hu, fun u' => ⟨fun h => ?_, ?_⟩⟩
  · exact Code.Reads.unique definite h reads
  · rintro rfl
    exact reads.forget

/-! ### Contexts around a varying -/

theorem Plan.ofValues_of_all (h : (p.graph.entries.toList.map Entry.node).all NodeOf.isValue = true) :
    p.OfValues := fun _ n hn => List.all_eq_true.1 h n (mem_of_node hn)

/-- Whether the fragment program of a build has an output. -/
def outputs : Except Failure Artifact → Bool
  | .ok a => a.programs.any fun prog => prog.stage = .fragment && prog.output.isSome
  | .error _ => false

theorem of_outputs {r : Except Failure Artifact} (h : outputs r = true) :
    ∃ a, r = .ok a ∧ ∃ prog ∈ a.programs, prog.stage = .fragment ∧ ∃ e, prog.output = some e := by
  unfold outputs at h
  split at h
  · next a =>
    obtain ⟨prog, hprog, h⟩ := List.any_eq_true.1 h
    obtain ⟨hstage, houtput⟩ := Bool.and_eq_true_iff.1 h
    exact ⟨a, rfl, prog, hprog, of_decide_eq_true hstage, Option.isSome_iff_exists.1 houtput⟩
  · cases h

/-- A number and its negation are lent to a sum with a varying. -/
def lentBeside : Graph := .ofNodes
  [.const .float [1], .unary .neg ⟨0⟩, .contextValue "x" none, .varying ⟨0⟩ none .perspective none,
    .operator .add ⟨3⟩ ⟨2⟩, .context ⟨4⟩ [("x", ⟨0⟩)], .context ⟨4⟩ [("x", ⟨1⟩)],
    .operator .sub ⟨5⟩ ⟨6⟩, .const .vec4 [0]]

/-- Whether a node is no varying, or one of the node `source`. -/
def NodeOf.variesOnly (source : NodeId) : Node → Bool
  | .varying c .. => c = source
  | _ => true

/-- The varying carries a number whatever is lent. -/
theorem steady_lentBeside (roots : List NodeId) :
    (Plan.ofGraph lentBeside (.ofDialect .glsl)).SteadyVaryings roots := by
  intro id source name interpolation sampling around around' hn _ _
  obtain rfl : source = ⟨0⟩ := by
    have sources : ((Plan.ofGraph lentBeside (.ofDialect .glsl)).graph.entries.toList.map
        Entry.node).all (NodeOf.variesOnly ⟨0⟩) = true := by
      rfl
    exact of_decide_eq_true (List.all_eq_true.1 sources _ (Plan.mem_of_node hn))
  have type : ∀ around, (Plan.ofGraph lentBeside (.ofDialect .glsl)).typeIn around ⟨0⟩ =
      some .float := by
    intro around
    rw [Plan.typeIn_eq, typeStep, built?_eq rfl rfl]
    rfl
  have value : ∀ names around, (Plan.ofGraph lentBeside (.ofDialect .glsl)).unfolded names .vertex
      around ⟨0⟩ = some (constant .float [1]) := by
    intro names around
    rw [Plan.unfolded_eq, unfoldedStep, built?_eq rfl rfl]
    rfl
  exact ⟨(type _).trans (type _).symm, fun names => (value names _).trans (value names _).symm⟩

/-- What the build makes of it reads as the difference of the two sums. -/
theorem lentBeside_reads :
    ∃ a p, build lentBeside ⟨some ⟨8⟩, some ⟨7⟩, none⟩ (.ofDialect .glsl) = .ok a ∧
      Plan.make lentBeside (.ofDialect .glsl) [⟨8⟩, ⟨7⟩] = .ok p ∧
        ∃ prog ∈ a.programs, prog.stage = .fragment ∧ ∃ e, prog.output = some e ∧
          ∃ s root u, run p [(.vertex, ⟨8⟩), (.fragment, ⟨7⟩)] = .ok s ∧
            (prog.stage, root) ∈ [(Stage.vertex, (⟨8⟩ : NodeId)), (.fragment, ⟨7⟩)] ∧
              p.unfoldedAs s.naming prog.stage [] root .vec4 = some u ∧
                ∀ u', a.code.Reads prog.stage e u' ↔ u' = u := by
  have shows : outputs (build lentBeside ⟨some ⟨8⟩, some ⟨7⟩, none⟩ (.ofDialect .glsl)) = true := by
    decide +kernel
  obtain ⟨a, ha, prog, hprog, hstage, e, he⟩ := of_outputs shows
  obtain ⟨p, -, hmake, -, -⟩ := of_build ha
  obtain rfl : p = .ofGraph lentBeside (.ofDialect .glsl) := Except.ok.inj (hmake.symm.trans (by rfl))
  have reads := output_unfolded ha hmake (Plan.ofValues_of_all (by rfl)) (steady_lentBeside _) hprog he
  exact ⟨a, _, ha, hmake, prog, hprog, hstage, e, he, reads⟩

/-! ### A varying under two contexts -/

/-- A number and its negation are lent to the source of a varying. -/
def lentToVarying : Graph := .ofNodes
  [.const .float [1], .unary .neg ⟨0⟩, .contextValue "x" none,
    .varying ⟨2⟩ none .perspective none, .context ⟨3⟩ [("x", ⟨0⟩)], .context ⟨3⟩ [("x", ⟨1⟩)],
    .operator .sub ⟨4⟩ ⟨5⟩, .const .vec4 [0]]

theorem make_lentToVarying :
    Plan.make lentToVarying (.ofDialect .glsl) [⟨7⟩, ⟨6⟩] =
      .ok (.ofGraph lentToVarying (.ofDialect .glsl)) := by
  rfl

/-- The root of the fragment stage is the difference of the two. -/
theorem unfolded_lentToVarying (names : Naming) (t : Stage) :
    (Plan.ofGraph lentToVarying (.ofDialect .glsl)).unfoldedAs names t [] ⟨6⟩ .vec4 =
      some (.construct .vec4
        [.operator .sub (constant .float [1]) (.unary .neg (constant .float [1]))]) := by
  let p := Plan.ofGraph lentToVarying (.ofDialect .glsl)
  have left : p.unfolded names t [] ⟨4⟩ = some (constant .float [1]) := by
    rw [Plan.unfolded_eq, unfoldedStep, built?_eq rfl rfl]
    show p.unfolded names t [⟨4⟩] ⟨3⟩ = _
    rw [Plan.unfolded_eq, unfoldedStep, built?_eq rfl rfl]
    show p.unfolded names .vertex [⟨4⟩] ⟨2⟩ = _
    rw [unfolded_contextValue rfl rfl (.inl rfl), Plan.unfolded_eq, unfoldedStep, built?_eq rfl rfl]
    rfl
  have right : p.unfolded names t [] ⟨5⟩ = some (.unary .neg (constant .float [1])) := by
    rw [Plan.unfolded_eq, unfoldedStep, built?_eq rfl rfl]
    show p.unfolded names t [⟨5⟩] ⟨3⟩ = _
    rw [Plan.unfolded_eq, unfoldedStep, built?_eq rfl rfl]
    show p.unfolded names .vertex [⟨5⟩] ⟨2⟩ = _
    rw [unfolded_contextValue rfl rfl (.inl rfl), Plan.unfolded_eq, unfoldedStep, built?_eq rfl rfl]
    show (p.unfolded names .vertex [] ⟨0⟩).bind (fun e => some (Expr.unary .neg e)) = _
    rw [Plan.unfolded_eq, unfoldedStep, built?_eq rfl rfl]
    rfl
  have leftType : p.typeIn [] ⟨4⟩ = some .float := by
    rw [typeIn_context rfl rfl, Plan.typeIn_eq, typeStep, built?_eq rfl rfl]
    show p.typeIn [⟨4⟩] ⟨2⟩ = _
    rw [typeIn_contextValue rfl rfl (.inl rfl), Plan.typeIn_eq, typeStep, built?_eq rfl rfl]
    rfl
  have rightType : p.typeIn [] ⟨5⟩ = some .float := by
    rw [typeIn_context rfl rfl, Plan.typeIn_eq, typeStep, built?_eq rfl rfl]
    show p.typeIn [⟨5⟩] ⟨2⟩ = _
    rw [typeIn_contextValue rfl rfl (.inl rfl), Plan.typeIn_eq, typeStep, built?_eq rfl rfl]
    show (p.typeIn [] ⟨0⟩).bind _ = _
    rw [Plan.typeIn_eq, typeStep, built?_eq rfl rfl]
    rfl
  have type : p.typeIn [] ⟨6⟩ = some .float := by
    rw [Plan.typeIn_eq, typeStep, built?_eq rfl rfl]
    show (p.typeIn [] ⟨4⟩).bind (fun l => (p.typeIn [] ⟨5⟩).bind fun r => _) = _
    rw [leftType, rightType]
    rfl
  have root : p.unfolded names t [] ⟨6⟩ = some (.operator .sub (constant .float [1])
      (.unary .neg (constant .float [1]))) := by
    rw [Plan.unfolded_eq, unfoldedStep, built?_eq rfl rfl]
    show (p.typeIn [] ⟨6⟩).bind (fun result => (p.typeIn [] ⟨4⟩).bind fun l =>
      (p.typeIn [] ⟨5⟩).bind fun r => _) = _
    rw [type, leftType, rightType]
    simp only [Option.bind_some, Plan.brought, leftType, rightType, left, right]
    rfl
  show (p.unfolded names t [] ⟨6⟩).bind (p.brought [] ⟨6⟩ .vec4 ·) = _
  rw [root]
  simp only [Plan.brought, type]
  rfl

/-- Whether an expression is the difference of two varyings. -/
def isDifference : Option Expr → Bool
  | some (.construct _ [.operator _ (.reference (.varying ..)) (.reference (.varying ..))]) => true
  | _ => false

/-- Whether a statement assigns no more than a number to a varying. -/
def carriesNumber : Statement → Bool
  | .assign (.reference (.varying ..)) (.literal ..) => true
  | .assign (.reference (.varying ..)) _ => false
  | _ => true

/-- Whether the output of the fragment program of a build is the difference of two varyings, which
carry numbers. -/
def subtracts : Except Failure Artifact → Bool
  | .ok a => (a.programs.any fun prog => prog.stage = .fragment && isDifference prog.output) &&
      (a.code.body .vertex).all carriesNumber
  | .error _ => false

/-- A varying that carries numbers only reads as one. -/
theorem Code.Reads.number {c : Code} {t t' : Stage} {n : String} {u : Expr}
    (hc : (c.body .vertex).all carriesNumber = true)
    (h : c.Reads t (.reference (.varying t' n)) u) : ∃ kind value, u = .literal kind value := by
  cases h with
  | input h => cases h
  | varying hst hu _ =>
    have number := List.all_eq_true.1 hc _ hst
    unfold carriesNumber at number
    split at number
    · next heq =>
      cases heq
      cases hu
      exact ⟨_, _, rfl⟩
    · cases number
    · next h => exact (h _ _ _ rfl).elim

/-- The output of the fragment program does not read as what the root of its stage stands for: its
two varyings are one. -/
theorem lentToVarying_differs :
    ∃ a p s, build lentToVarying ⟨some ⟨7⟩, some ⟨6⟩, none⟩ (.ofDialect .glsl) = .ok a ∧
      Plan.make lentToVarying (.ofDialect .glsl) [⟨7⟩, ⟨6⟩] = .ok p ∧ p.OfValues ∧
        run p [(.vertex, ⟨7⟩), (.fragment, ⟨6⟩)] = .ok s ∧
          ∃ prog ∈ a.programs, prog.stage = .fragment ∧ ∃ e, prog.output = some e ∧
            ∀ u, a.code.Reads .fragment e u →
              p.unfoldedAs s.naming .fragment [] ⟨6⟩ .vec4 ≠ some u := by
  have hsubtracts : subtracts
      (build lentToVarying ⟨some ⟨7⟩, some ⟨6⟩, none⟩ (.ofDialect .glsl)) = true := by
    decide +kernel
  unfold subtracts at hsubtracts
  split at hsubtracts
  · next a ha =>
    obtain ⟨hany, hnumbers⟩ := Bool.and_eq_true_iff.1 hsubtracts
    obtain ⟨prog, hprog, houtput⟩ := List.any_eq_true.1 hany
    obtain ⟨hstage, hdifference⟩ := Bool.and_eq_true_iff.1 houtput
    obtain ⟨p, s, hmake, hrun, -⟩ := of_build ha
    cases make_lentToVarying.symm.trans hmake
    refine ⟨a, _, s, ha, hmake, Plan.ofValues_of_all (by rfl), hrun, prog, hprog,
      of_decide_eq_true hstage, ?_⟩
    unfold isDifference at hdifference
    split at hdifference
    · next heq =>
      refine ⟨_, heq, fun u hu hunfolded => ?_⟩
      cases hu with
      | construct hu =>
      cases hu with
      | cons hu _ =>
      cases hu with
      | operator _ hr =>
      -- what the right side reads as is a number, what it stands for is a negation
      obtain ⟨kind, value, rfl⟩ := hr.number hnumbers
      rw [unfolded_lentToVarying] at hunfolded
      cases hunfolded
    · cases hdifference
  · cases hsubtracts

end ShaderGraph
