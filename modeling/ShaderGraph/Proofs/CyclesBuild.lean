import ShaderGraph.Proofs.CyclesAnalysis

/-!
# Builds and cycles

Nothing is refused before analysis or after generation that only the walk over the nodes refuses
(`make_error`, `artifact_error`), so what was shown of the two holds of a whole build:

* `build_cycle_of_acyclic`: where no node refers to itself, a build reports a cycle only if
  evaluation of a root passes a node twice, under different contexts.
* `build_ends`: a build ends where no node refers to itself, and also where nodes are steady and
  evaluation comes back under the same contexts only; there it is refused if it comes back.
-/

namespace ShaderGraph

open Relation

/-! ### Plans -/

namespace Plan

variable {p : Plan}

theorem pendingFrom_error {fuel : Nat} {ids visited pending : List NodeId} {e : GraphError}
    (h : p.pendingFrom fuel ids visited pending = .error e) :
    (Cause.graph e).isOfWalk = false := by
  induction fuel generalizing ids visited pending with
  | zero => cases ids <;> cases h
  | succ fuel ih =>
    cases ids with
    | nil => cases h
    | cons id rest =>
      rw [pendingFrom] at h
      split at h
      · next hr =>
        cases h
        exact resolve_error hr
      · split at h
        · exact ih h
        · split at h
          · next hn =>
            cases h
            exact node_error hn
          · split at h
            · exact ih h
            · exact ih h

theorem checkTarget_error {g : Graph} {id target : NodeId} {e : BuildError}
    (h : checkTarget g id target = .error e) : e.cause.isOfWalk = false := by
  unfold checkTarget at h
  split at h
  · cases h
    rfl
  · split at h
    · cases h
      rfl
    · cases h

theorem addExpansion_error {id : NodeId} {e : BuildError} {q : Plan}
    (h : p.addExpansion id = (.error e, q)) : e.cause.isOfWalk = false := by
  unfold addExpansion at h
  split at h
  · exact checkTarget_error (congrArg Prod.fst h)
  · -- a setup refuses with a cause of its own
    next c _ =>
    have refused := congrArg Prod.fst h
    dsimp only at refused
    cases hr : (p.host.setup c p.graph).1 with
    | error r =>
      rw [hr] at refused
      cases refused
      rfl
    | ok target =>
      rw [hr] at refused
      exact checkTarget_error refused
  · cases h
  · cases h
    rfl

theorem replaceNode_error {id : NodeId} {e : BuildError} (h : p.replaceNode id = .error e) :
    e.cause.isOfWalk = false := by
  unfold replaceNode at h
  split at h
  · cases h
  · next e' q he =>
    cases h
    rw [BuildError.cause_located]
    exact addExpansion_error he

theorem replaceNodes_error {ids : List NodeId} {e : BuildError}
    (h : p.replaceNodes ids = .error e) : e.cause.isOfWalk = false := by
  induction ids generalizing p with
  | nil => cases h
  | cons id rest ih =>
    rw [replaceNodes] at h
    split at h
    · next he =>
      cases h
      exact replaceNode_error he
    · exact ih h

theorem expandIn_error {roots : List NodeId} {rounds : Nat} {e : BuildError}
    (h : expandIn roots rounds p = .error e) : e.cause.isOfWalk = false := by
  induction rounds generalizing p with
  | zero =>
    unfold expandIn at h
    split at h
    · next he =>
      cases h
      exact pendingFrom_error he
    · cases h
    · cases h
      rfl
  | succ rounds ih =>
    unfold expandIn at h
    split at h
    · next he =>
      cases h
      exact pendingFrom_error he
    · cases h
    · dsimp only at h
      split at h
      · next he =>
        cases h
        exact replaceNodes_error he
      · exact ih h

/-- Evaluations are short, and analysis can tell those that come back. -/
def Tellable (p : Plan) (roots : List NodeId) : Prop :=
  p.Acyclic ∨ p.Steady roots ∧ p.Settled roots

theorem Tellable.short {roots : List NodeId} (h : p.Tellable roots) : p.Short roots p.bound := by
  rcases h with h | h
  · exact h.short roots
  · exact h.2.short

/-- Evaluation of a root comes back to a situation. -/
def ComesBack (p : Plan) (roots : List NodeId) : Prop :=
  ∃ σ, p.Reaches roots σ ∧ TransGen p.Step σ σ

/-- Nothing is refused while a plan is made that only the walk refuses. -/
theorem make_error {g : Graph} {options : BuildOptions} {roots : List NodeId} {host : Host}
    {e : BuildError} (h : make g options roots host = .error e) : e.cause.isOfWalk = false := by
  unfold make at h
  split at h
  · next he =>
    cases h
    exact expandIn_error he
  · unfold collectStructs at h
    dsimp only at h
    split at h
    · cases h
      rfl
    · cases h

end Plan

/-! ### Artifacts -/

namespace BuildState

variable {s : BuildState} {p : Plan} {c : Cause}

theorem structDecl_error {name : String} (h : structDecl p name = .error c) (e : GraphError) :
    c ≠ .graph e := by
  unfold structDecl at h
  split at h
  · cases h
    exact fun h => nomatch h
  · split at h
    · cases h
      exact fun h => nomatch h
    · cases h

theorem stageProgram_error {stage : Stage} (h : s.stageProgram p stage = .error c)
    (e : GraphError) : c ≠ .graph e := by
  rcases bind_error h with hs | ⟨structs, -, h⟩
  · obtain ⟨name, -, he⟩ := mapM_error hs
    exact structDecl_error he e
  · dsimp only at h
    split at h
    · cases h
      exact fun h => nomatch h
    · cases h

theorem checkedProgram_error {stage : Stage} {err : BuildError}
    (h : s.checkedProgram p stage = .error err) (e : GraphError) : err.cause ≠ .graph e := by
  unfold checkedProgram at h
  split at h
  · next hs =>
    cases h
    exact stageProgram_error hs e
  · dsimp only at h
    split at h
    · split at h
      · cases h
      · cases h
        exact fun h => nomatch h
    · cases h

/-- When an artifact is put together, nothing is refused because of the structure of the graph. -/
theorem artifact_error {active : List Stage} {err : BuildError}
    (h : s.artifact p active = .error err) (e : GraphError) : err.cause ≠ .graph e := by
  rcases bind_error h with hs | ⟨programs, -, h⟩
  · obtain ⟨stage, -, he⟩ := mapM_error hs
    exact checkedProgram_error he e
  · cases h

end BuildState

/-! ### Runs -/

namespace Build

variable {p : Plan} {rs : List (Stage × NodeId)}

theorem regular_start (p : Plan) : (BuildState.start p).Regular p where
  frames := FrameTable.regular_empty
  varyings _ _ h := nomatch h
  functions := IncludesFirst.empty

/-- What analysis leaves behind. -/
theorem analyze_roots (p : Plan) (rs : List (Stage × NodeId)) (deep : Prop)
    (active : List Stage) (hp : ¬deep → p.LayoutsFounded)
    (hb : ¬deep → p.Short (rs.map Prod.snd) p.bound) :
    match atRoots p active analyze rs (BuildState.start p) with
    | .ok s => s.Regular p ∧ ∀ r ∈ rs, Secured p (rs.map Prod.snd) r.2
    | .error f => (Law.evaluation p (rs.map Prod.snd) deep [] []).ends f := by
  have start : ∀ r ∈ rs, (Law.survey p (rs.map Prod.snd) deep [] []).inv
      (Env.root p active r.1) (BuildState.start p) := by
    refine fun r _ => ⟨⟨rfl, regular_start p, trivial, .nil⟩, rfl, fun _ k hk => ?_⟩
    exact absurd hk NodeCache.not_counted_empty
  have secures : ∀ r ∈ rs, (Law.survey p (rs.map Prod.snd) deep [] []).Secures
      (Env.root p active r.1) (analyze r.2) fun _ => Secured p (rs.map Prod.snd) r.2 := by
    intro r hr s hs
    unfold analyze
    rw [meets_bind, meets_read]
    -- each root is analysed with an empty path and the whole depth
    have length : ([] : List Situation).length + (p.graph.size + 2) = p.graph.size + 2 :=
      Nat.zero_add _
    refine analyzeIn_survey hp hb length List.nodup_nil (fun τ hτ => nomatch hτ) ?_ s hs
    exact fun m hm => ⟨.nil, .root (List.mem_map_of_mem hr) hm, fun τ hτ => nomatch hτ⟩
  have all := Law.Secures.atRoots (Q := fun r _ => Secured p (rs.map Prod.snd) r.2)
    (fun _ _ _ _ hq => hq) start secures
  cases h : atRoots p active analyze rs (BuildState.start p) with
  | error f =>
    rw [h] at all
    exact all
  | ok s =>
    rw [h] at all
    exact ⟨all.1.1.2 (regular_start p), all.2⟩

/-- What generation may fail with. -/
theorem generate_roots (deep : Prop) (active : List Stage)
    (he : ¬deep → Ends p (rs.map Prod.snd)) {s : BuildState} (hs : s.Regular p) {f : Failure}
    (h : atRoots p active generateStage rs s = .error f) :
    (Law.evaluation p (rs.map Prod.snd) deep [] []).ends f := by
  have start : ∀ r ∈ rs, (Law.evaluation p (rs.map Prod.snd) deep [] []).inv
      (Env.root p active r.1) s := fun _ _ => ⟨rfl, hs, trivial, .nil⟩
  have all := Law.Keeps.atRoots start fun r hr =>
    generateStage_evaluation he (List.mem_map_of_mem hr)
  rw [h] at all
  exact all

/-- A run reports a cycle only where evaluation comes back. -/
theorem run_justified {e : BuildError} (h : run p rs = .error (.refused e)) :
    p.Justified (rs.map Prod.snd) e.cause := by
  have surveyed := analyze_roots p rs True (rs.map Prod.fst)
    (absurd trivial) (absurd trivial)
  unfold run at h
  dsimp only at h
  split at h
  · next s hs =>
    rw [hs] at surveyed
    exact generate_roots True _ (absurd trivial) surveyed.1 h
  · next f hf =>
    rw [hf] at surveyed
    cases h
    exact surveyed

/-- Where analysis ends well and nodes are steady, evaluation never comes back. -/
theorem not_recurs_of_secured {roots : List NodeId} (hp : p.Steady roots)
    (h : ∀ r ∈ roots, Secured p roots r) (σ : Situation) (hσ : p.Reaches roots σ) :
    ¬TransGen p.Step σ σ := by
  obtain ⟨r, hr, m, hm, hg⟩ := id hσ
  have root := Plan.Reaches.root (p := p) hr hm
  exact Plan.Ending.not_recurs (Plan.Ending.of_transGen (h r hr hp m hm) root hg) hσ

theorem not_recurs_of_tellable {roots : List NodeId} (h : p.Tellable roots)
    (hs : ∀ r ∈ roots, Secured p roots r) (σ : Situation) (hσ : p.Reaches roots σ) :
    ¬TransGen p.Step σ σ := by
  rcases h with h | h
  · exact h.not_recurs σ
  · exact not_recurs_of_secured h.1 hs σ hσ

/-- A run ends; it is refused where evaluation comes back. -/
theorem run_ends (hp : p.LayoutsFounded) (ht : p.Tellable (rs.map Prod.snd)) :
    match run p rs with
    | .ok _ => ∀ σ, p.Reaches (rs.map Prod.snd) σ → ¬TransGen p.Step σ σ
    | .error .exhausted => False
    | .error (.refused _) => True := by
  have surveyed := analyze_roots p rs False (rs.map Prod.fst)
    (fun _ => hp) fun _ => ht.short
  unfold run
  dsimp only
  cases hs : atRoots p (rs.map Prod.fst) analyze rs (BuildState.start p) with
  | error f =>
    rw [hs] at surveyed
    cases f with
    | refused e => trivial
    | exhausted => exact surveyed
  | ok s =>
    rw [hs] at surveyed
    have secured : ∀ r ∈ rs.map Prod.snd, Secured p (rs.map Prod.snd) r := by
      intro r hr
      obtain ⟨root, hroot, rfl⟩ := List.mem_map.1 hr
      exact surveyed.2 root hroot
    -- analysis ended well, so evaluation never comes back and generation ends as well
    have recurs := not_recurs_of_tellable ht secured
    dsimp only
    cases hg : atRoots p (rs.map Prod.fst) generateStage rs s with
    | ok s' => exact recurs
    | error f =>
      have ends := generate_roots False _ (fun _ => ⟨hp, ht.short, recurs⟩) surveyed.1 hg
      cases f with
      | refused e => trivial
      | exhausted => exact ends

end Build

/-! ### Builds -/

variable {g : Graph} {request : BuildRequest} {options : BuildOptions} {host : Host}

/-- A build is refused because of the structure of the graph if it has no roots, or else while the
plan is made or run. -/
theorem refused_of_build {e : BuildError} {err : GraphError}
    (h : build g request options host = .error (.refused e)) (hc : e.cause = .graph err) :
    err = .noRoots ∨ Plan.make g options (request.roots.map Prod.snd) host = .error e ∨
      ∃ p, Plan.make g options (request.roots.map Prod.snd) host = .ok p ∧
        Build.run p request.roots = .error (.refused e) := by
  unfold build at h
  dsimp only at h
  split at h
  · cases h
    cases hc
    exact .inl rfl
  · split at h
    · next hm =>
      cases h
      exact .inr (.inl hm)
    · next p hm =>
      split at h
      · next hr =>
        cases h
        exact .inr (.inr ⟨p, hm, hr⟩)
      · split at h
        · cases h
        · next ha =>
          cases h
          exact absurd hc (BuildState.artifact_error ha err)

/-- What only the walk refuses is refused by the run of a plan. -/
theorem run_of_build {e : BuildError} (h : build g request options host = .error (.refused e))
    (hc : e.cause.isOfWalk = true) :
    ∃ p, Plan.make g options (request.roots.map Prod.snd) host = .ok p ∧
      Build.run p request.roots = .error (.refused e) := by
  obtain ⟨err, he⟩ := Cause.exists_of_isOfWalk hc
  rcases refused_of_build h he with rfl | hm | hr
  · rw [he] at hc
    cases hc
  · rw [Plan.make_error hm] at hc
    cases hc
  · exact hr

/-- A cycle is reported by the run of a plan. -/
theorem run_of_build_cycle {e : BuildError} (h : build g request options host = .error (.refused e))
    (hc : e.cause.isCycle = true) :
    ∃ p, Plan.make g options (request.roots.map Prod.snd) host = .ok p ∧
      Build.run p request.roots = .error (.refused e) :=
  run_of_build h (Cause.isOfWalk_of_isCycle hc)

/-- Where no node refers to itself, no type is reported to depend on itself, and a node is
reported to be met below itself only if evaluation passes it twice, under different contexts. -/
theorem build_cycle_of_acyclic {e : BuildError}
    (hp : ∀ p, Plan.make g options (request.roots.map Prod.snd) host = .ok p → p.Acyclic)
    (h : build g request options host = .error (.refused e)) :
    (∀ id, e.cause ≠ .graph (.typeCycle id)) ∧
      ∀ id, e.cause = .graph (.cycle id) →
        ∃ p, Plan.make g options (request.roots.map Prod.snd) host = .ok p ∧
          ∃ σ τ, p.Reaches (request.roots.map Prod.snd) σ ∧ TransGen p.Step σ τ ∧
            σ.node = id ∧ τ.node = id ∧ σ.around ≠ τ.around := by
  refine ⟨fun id hid => ?_, fun id hid => ?_⟩
  · obtain ⟨p, hm, hr⟩ := run_of_build_cycle h (by rw [hid]; rfl)
    have justified := Build.run_justified hr
    rw [hid] at justified
    obtain ⟨σ, -, hg⟩ := justified
    exact (hp p hm).not_recurs σ hg
  · obtain ⟨p, hm, hr⟩ := run_of_build_cycle h (by rw [hid]; rfl)
    have justified := Build.run_justified hr
    rw [hid] at justified
    -- under the same contexts the two situations would be one, and evaluation would come back
    obtain ⟨σ, τ, hσ, hg, hn, hn'⟩ := justified
    refine ⟨p, hm, σ, τ, hσ, hg, hn, hn', fun ha => ?_⟩
    obtain ⟨m, around⟩ := σ
    obtain ⟨m', around'⟩ := τ
    cases hn.trans hn'.symm
    cases ha
    exact (hp p hm).not_recurs _ hg

/-- The error about the structure of the graph that a build reports. -/
def reported? : Except Failure Artifact → Option GraphError
  | .error (.refused ⟨.graph e, _, _, _⟩) => some e
  | _ => none

theorem of_reported? {r : Except Failure Artifact} {e : GraphError} (h : reported? r = some e) :
    ∃ f, r = .error (.refused f) ∧ f.cause = .graph e := by
  unfold reported? at h
  split at h
  · cases h
    exact ⟨_, rfl, rfl⟩
  · cases h

/-- A context lends, under a key, a sum that reads the value of the key outside. -/
def rebound : Graph := .ofNodes
  [.const .float [1], .contextValue "x" (some ⟨0⟩), .operator .add ⟨1⟩ ⟨0⟩,
    .operator .mul ⟨1⟩ ⟨0⟩, .context ⟨3⟩ [("x", ⟨2⟩)]]

theorem make_rebound : Plan.make rebound .standard [⟨4⟩] = .ok (.ofGraph rebound .standard) := by
  rfl

theorem rebound_acyclic {p : Plan} (hp : Plan.make rebound .standard [⟨4⟩] = .ok p) :
    p.Acyclic := by
  cases make_rebound.symm.trans hp
  exact Plan.acyclic_of_refersBack (by decide +kernel)

theorem rebound_reported :
    reported? (build rebound ⟨none, some ⟨4⟩, none⟩ .standard) = some (.cycle ⟨1⟩) := by
  decide +kernel

/-- No node of `rebound` refers to itself, and yet a cycle is reported. -/
theorem rebound_cycle :
    (∃ p, Plan.make rebound .standard [⟨4⟩] = .ok p ∧ p.Acyclic) ∧
      ∃ e, build rebound ⟨none, some ⟨4⟩, none⟩ .standard = .error (.refused e) ∧
        e.cause = .graph (.cycle ⟨1⟩) := by
  exact ⟨⟨_, make_rebound, rebound_acyclic make_rebound⟩, of_reported? rebound_reported⟩

/-- Evaluation of `rebound` passes its context value twice. -/
theorem rebound_passes_twice :
    ∃ p, Plan.make rebound .standard [⟨4⟩] = .ok p ∧
      ∃ σ τ, p.Reaches [⟨4⟩] σ ∧ TransGen p.Step σ τ ∧
        σ.node = ⟨1⟩ ∧ τ.node = ⟨1⟩ ∧ σ.around ≠ τ.around := by
  obtain ⟨e, he, hc⟩ := of_reported? rebound_reported
  exact (build_cycle_of_acyclic (fun _ => rebound_acyclic) he).2 _ hc

/-- A build ends where evaluations are short and analysis can tell those that come back; where
evaluation of a root comes back it is refused. -/
theorem build_ends
    (h : ∀ p, Plan.make g options (request.roots.map Prod.snd) host = .ok p →
      p.LayoutsFounded ∧ p.Tellable (request.roots.map Prod.snd)) :
    build g request options host ≠ .error .exhausted ∧
      ∀ p, Plan.make g options (request.roots.map Prod.snd) host = .ok p →
        p.ComesBack (request.roots.map Prod.snd) →
          ∃ e, build g request options host = .error (.refused e) := by
  unfold build
  dsimp only
  split
  · exact ⟨fun h => (nomatch h), fun _ _ _ => ⟨_, rfl⟩⟩
  cases hm : Plan.make g options (request.roots.map Prod.snd) host with
  | error e => exact ⟨fun h => (nomatch h), fun _ _ _ => ⟨e, rfl⟩⟩
  | ok p =>
    dsimp only
    have ends := Build.run_ends (h p hm).1 (h p hm).2
    cases hr : Build.run p request.roots with
    | error f =>
      rw [hr] at ends
      cases f with
      | exhausted => exact ends.elim
      | refused e => exact ⟨fun h => (nomatch h), fun _ _ _ => ⟨e, rfl⟩⟩
    | ok s =>
      rw [hr] at ends
      refine ⟨fun h => ?_, fun p' hp' hrec => ?_⟩
      · dsimp only at h
        split at h <;> cases h
      · cases hp'
        obtain ⟨σ, hσ, hg⟩ := hrec
        exact absurd hg (ends σ hσ)

/-- A node that negates itself. -/
def negated : Graph := .ofNodes [.unary .neg ⟨0⟩]

theorem make_negated : Plan.make negated .standard [⟨0⟩] = .ok (.ofGraph negated .standard) := by
  rfl

/-- Without struct layouts none contains itself. -/
theorem Plan.layoutsFounded_of_empty {p : Plan} (h : p.structs = .empty) : p.LayoutsFounded := by
  intro name hg
  obtain ⟨_, ⟨members, hm, -⟩, -⟩ := TransGen.head'_iff.1 hg
  rw [h] at hm
  cases hm

theorem negated_refused :
    ∃ e, build negated ⟨none, some ⟨0⟩, none⟩ .standard = .error (.refused e) := by
  have node : ∀ {id n}, (Plan.ofGraph negated .standard).node id = .ok n → n = .unary .neg ⟨0⟩ := by
    intro id n hn
    have lt := Plan.lt_size_of_node hn
    obtain ⟨i⟩ := id
    cases Nat.lt_one_iff.1 lt
    cases hn
    rfl
  have flat : ∀ id inner values,
      (Plan.ofGraph negated .standard).node id ≠ .ok (.context inner values) :=
    fun id inner values hn => nomatch node hn
  have step : (Plan.ofGraph negated .standard).Step ⟨⟨0⟩, []⟩ ⟨⟨0⟩, []⟩ :=
    .child (n := .unary .neg ⟨0⟩) rfl rfl (.head _) rfl
  refine (build_ends fun p hp => ?_).2 _ make_negated ⟨⟨⟨0⟩, []⟩, .root (.head _) rfl, .single step⟩
  cases make_negated.symm.trans hp
  refine ⟨Plan.layoutsFounded_of_empty rfl, .inr ⟨?_, ?_⟩⟩
  · exact Plan.steady_of_flat flat
  · exact Plan.settled_of_flat flat

/-- A context node lends itself to a value that is met under no context first. -/
def selfLent : Graph := .ofNodes
  [.const .float [1], .contextValue "x" (some ⟨0⟩), .convert ⟨1⟩ .float,
    .context ⟨2⟩ [("x", ⟨3⟩)], .operator .add ⟨2⟩ ⟨3⟩]

/-- The same with a variable for the value: it keeps the name that it got first. -/
def selfKept : Graph := .ofNodes
  [.const .float [1], .contextValue "x" (some ⟨0⟩), .convert ⟨1⟩ .float,
    .var ⟨2⟩ (some "v") false, .context ⟨3⟩ [("x", ⟨4⟩)], .operator .add ⟨3⟩ ⟨4⟩]

theorem selfLent_comesBack : (Plan.ofGraph selfLent .standard).ComesBack [⟨4⟩] := by
  have enter : (Plan.ofGraph selfLent .standard).Step ⟨⟨3⟩, []⟩ ⟨⟨2⟩, [⟨3⟩]⟩ := .inside rfl rfl
  have convert : (Plan.ofGraph selfLent .standard).Step ⟨⟨2⟩, [⟨3⟩]⟩ ⟨⟨1⟩, [⟨3⟩]⟩ :=
    .child (n := .convert ⟨1⟩ .float) rfl rfl (.head _) rfl
  have lent : (Plan.ofGraph selfLent .standard).Step ⟨⟨1⟩, [⟨3⟩]⟩ ⟨⟨3⟩, []⟩ := .lent rfl rfl rfl
  have root : (Plan.ofGraph selfLent .standard).Step ⟨⟨4⟩, []⟩ ⟨⟨3⟩, []⟩ :=
    .child (n := .operator .add ⟨2⟩ ⟨3⟩) rfl rfl (.tail _ (.head _)) rfl
  exact ⟨_, Plan.Reaches.step (.root (.head _) rfl) root,
    .head enter (.head convert (.single lent))⟩

theorem selfKept_comesBack : (Plan.ofGraph selfKept .standard).ComesBack [⟨5⟩] := by
  have enter : (Plan.ofGraph selfKept .standard).Step ⟨⟨4⟩, []⟩ ⟨⟨3⟩, [⟨4⟩]⟩ := .inside rfl rfl
  have value : (Plan.ofGraph selfKept .standard).Step ⟨⟨3⟩, [⟨4⟩]⟩ ⟨⟨2⟩, [⟨4⟩]⟩ :=
    .child (n := .var ⟨2⟩ (some "v") false) rfl rfl (.head _) rfl
  have convert : (Plan.ofGraph selfKept .standard).Step ⟨⟨2⟩, [⟨4⟩]⟩ ⟨⟨1⟩, [⟨4⟩]⟩ :=
    .child (n := .convert ⟨1⟩ .float) rfl rfl (.head _) rfl
  have lent : (Plan.ofGraph selfKept .standard).Step ⟨⟨1⟩, [⟨4⟩]⟩ ⟨⟨4⟩, []⟩ := .lent rfl rfl rfl
  have root : (Plan.ofGraph selfKept .standard).Step ⟨⟨5⟩, []⟩ ⟨⟨4⟩, []⟩ :=
    .child (n := .operator .add ⟨3⟩ ⟨4⟩) rfl rfl (.tail _ (.head _)) rfl
  exact ⟨_, Plan.Reaches.step (.root (.head _) rfl) root,
    .head enter (.head value (.head convert (.single lent)))⟩

/-- Whether a build does not end. -/
def isExhausted : Except Failure Artifact → Bool
  | .error .exhausted => true
  | _ => false

theorem eq_of_isExhausted {r : Except Failure Artifact} (h : isExhausted r = true) :
    r = .error .exhausted := by
  unfold isExhausted at h
  split at h
  · rfl
  · cases h

/-- Evaluation of both graphs comes back. The build of the first does not end, that of the second
succeeds. -/
theorem comesBack_not_refused :
    (∃ p, Plan.make selfLent .standard [⟨4⟩] = .ok p ∧ p.LayoutsFounded ∧ p.ComesBack [⟨4⟩]) ∧
      build selfLent ⟨none, some ⟨4⟩, none⟩ .standard = .error .exhausted ∧
      (∃ p, Plan.make selfKept .standard [⟨5⟩] = .ok p ∧ p.LayoutsFounded ∧ p.ComesBack [⟨5⟩]) ∧
      (build selfKept ⟨none, some ⟨5⟩, none⟩ .standard).isOk = true := by
  refine ⟨⟨_, by rfl, Plan.layoutsFounded_of_empty rfl, selfLent_comesBack⟩,
    eq_of_isExhausted ?_, ?_, ?_⟩
  · decide +kernel
  · exact ⟨_, by rfl, Plan.layoutsFounded_of_empty rfl, selfKept_comesBack⟩
  · decide +kernel

end ShaderGraph
