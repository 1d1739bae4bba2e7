import ShaderGraph.Proofs.CallWalk
import ShaderGraph.Proofs.Collected
import ShaderGraph.Proofs.LocalScopes
import ShaderGraph.Proofs.Recalled
import ShaderGraph.Proofs.Unbranched
import ShaderGraph.Proofs.VariablesBuild

/-!
# Results of calls

The value of a call is bound to a name by the statement that runs the call (`Statement.results`). The
body of a stage binds one result for each visit at a call that is not answered from memory
(`results_of_run`).

The value of a call is remembered with one context only: the one under which it was computed last.
So under a context the call of a node runs once exactly when no reference under the context comes
after a call under another (`callsOnce_iff`).
-/

namespace ShaderGraph

open Build

/-- Whether the code of a node calls a native function. -/
def NodeOf.isCall {ρ μ : Type} : NodeOf ρ μ → Bool
  | call .. => true
  | _ => false

/-- Whether there is a call at a position of a plan. -/
def Plan.calls (p : Plan) (id : NodeId) : Bool := (p.node id).toOption.any NodeOf.isCall

/-- The name that a statement itself binds to the result of a call. -/
def Statement.results : Statement → List String
  | declare name _ (some (.call _ _)) _ _ => [name]
  | _ => []

theorem Statement.results_of_callees {st : Statement} (h : st.callees = []) : st.results = [] := by
  cases st with
  | declare name type init m owner =>
    cases init with
    | none => rfl
    | some e => cases e <;> first | rfl | cases h
  | _ => rfl

/-- The name that a visit at a call binds to its result in a stage. -/
def Visit.result? (p : Plan) (t : Stage) (v : Visit) : Option String :=
  if v.key.stage = some t ∧ p.calls v.key.node ∧ v.computes then v.code.bind Expr.localName? else none

namespace BuildState

variable {p : Plan} {t : Stage} {s s' s'' : BuildState} {ns ns' : List String}

/-- The results that the open blocks of a stage bind. -/
def results (s : BuildState) (t : Stage) : List String := (s.stages.get t).collect Statement.results

/-- The names that the visits at calls bind to their results. -/
def computed (s : BuildState) (p : Plan) (t : Stage) : List String :=
  s.visits.filterMap (Visit.result? p t)

/-- Between two states a stage binds the results of calls that the visits bind, unless they are in
the statements of a block that belongs to no open one; these bind `ns`. -/
structure Runs (p : Plan) (t : Stage) (ns : List String) (s s' : BuildState) : Prop where
  advances : s.Advances p s'
  balance : ∀ x, (s'.results t).count x + ns.count x + (s.computed p t).count x =
    (s.results t).count x + (s'.computed p t).count x

namespace Runs

theorem refl (s : BuildState) : s.Runs p t [] s := ⟨.refl s, fun _ => rfl⟩

theorem trans (h : s.Runs p t ns s') (h' : s'.Runs p t ns' s'') : s.Runs p t (ns ++ ns') s'' where
  advances := h.advances.trans h'.advances
  balance x := by
    have := h.balance x
    have := h'.balance x
    rw [List.count_append]
    omega

/-- A change that neither visits nor states anything. -/
theorem of_same (ha : s.Advances p s') (hr : s'.results t = s.results t) (hv : s'.visits = s.visits) :
    s.Runs p t [] s' := by
  refine ⟨ha, fun x => ?_⟩
  unfold computed
  rw [hr, hv]
  rfl

theorem of_quiet (ha : s.Advances p s') (hq : s.Quiet s') : s.Runs p t [] s' := by
  refine of_same ha ?_ hq.visits
  unfold results StageBuild.collect
  rw [hq.inner, hq.outer]

theorem results_add {e : Stage} (st : Statement) :
    (BuildState.results { s with stages := s.stages.modify e fun b => b.add st } t).Perm
      (s.results t ++ if e = t then st.collect Statement.results else []) := by
  unfold BuildState.results
  rw [PerStage.get_modify]
  by_cases he : e = t
  · rw [if_pos he, if_pos he.symm]
    exact StageBuild.collect_add
  · rw [if_neg he, if_neg (Ne.symm he), List.append_nil]

/-- A statement is added, with the results that it binds. -/
theorem add {e : Stage} {st : Statement}
    (h : s.Runs p t (if e = t then st.collect Statement.results else []) s') :
    s.Runs p t [] { s' with stages := s'.stages.modify e fun b => b.add st } where
  advances := h.advances.trans (.of_eq rfl rfl rfl)
  balance x := by
    have balance := h.balance x
    have added := (results_add (s := s') (t := t) (e := e) st).count_eq x
    have computed : BuildState.computed
        { s' with stages := s'.stages.modify e fun b => b.add st } p t = s'.computed p t := rfl
    rw [List.count_append] at added
    rw [computed, added, List.count_nil]
    omega

/-- A block is closed; its statements are handed over. -/
theorem closeBlock {e : Stage}
    (h : BuildState.Runs p t [] { s with stages := s.stages.modify e StageBuild.openBlock } s') :
    s.Runs p t (if e = t then Statement.collectIn Statement.results
        (s'.stages.get e).innerStatements else [])
      { s' with stages := s'.stages.modify e StageBuild.closeBlock } where
  advances := by
    have opened : s.Advances p { s with stages := s.stages.modify e StageBuild.openBlock } :=
      .of_eq rfl rfl rfl
    exact (opened.trans h.advances).trans (.of_eq rfl rfl rfl)
  balance x := by
    have balance := h.balance x
    have opened : BuildState.results { s with stages := s.stages.modify e StageBuild.openBlock } t =
        s.results t := by
      unfold BuildState.results
      rw [PerStage.get_modify]
      split
      · exact StageBuild.collect_openBlock
      · rfl
    have computed : BuildState.computed { s with stages := s.stages.modify e StageBuild.openBlock }
        p t = s.computed p t := rfl
    have computed' : BuildState.computed
        { s' with stages := s'.stages.modify e StageBuild.closeBlock } p t = s'.computed p t := rfl
    rw [opened, computed, List.count_nil] at balance
    rw [computed']
    unfold BuildState.results at balance ⊢
    rw [PerStage.get_modify]
    by_cases he : e = t
    · subst he
      have closed := congrArg (List.count x)
        (StageBuild.collect_closeBlock (f := Statement.results) (b := s'.stages.get e))
      rw [List.count_append] at closed
      rw [if_pos rfl, if_pos rfl]
      omega
    · rw [if_neg he, if_neg (Ne.symm he)]
      exact balance

/-- A visit is logged that binds no result. -/
theorem log {v : Visit} (h : s.Runs p t [] s') (hv : v.result? p t = none) :
    s.Runs p t [] { s' with visits := v :: s'.visits } where
  advances := h.advances.trans (.of_eq rfl rfl rfl)
  balance x := by
    have balance := h.balance x
    have computed : BuildState.computed { s' with visits := v :: s'.visits } p t =
        s'.computed p t := List.filterMap_cons_none hv
    rw [computed]
    exact balance

/-- A call is run by a statement and its visit is logged. -/
theorem run {e : Stage} {st : Statement} {v : Visit} {name : String} {cache : NodeCache}
    (h : s.Runs p t [] s') (ha : s'.Advances p { s' with cache := cache })
    (hst : st.collect Statement.results = [name])
    (hv : v.result? p t = if e = t then some name else none) :
    s.Runs p t [] { s' with
      stages := s'.stages.modify e fun b => b.add st
      cache := cache
      visits := v :: s'.visits } where
  advances := (h.advances.trans ha).trans (.of_eq rfl rfl rfl)
  balance x := by
    have balance := h.balance x
    have added := (results_add (s := s') (t := t) (e := e) st).count_eq x
    rw [List.count_append, hst] at added
    have results : BuildState.results { s' with
        stages := s'.stages.modify e fun b => b.add st
        cache := cache
        visits := v :: s'.visits } t =
      BuildState.results { s' with stages := s'.stages.modify e fun b => b.add st } t := rfl
    have computed : (BuildState.computed { s' with
        stages := s'.stages.modify e fun b => b.add st
        cache := cache
        visits := v :: s'.visits } p t).count x =
      (s'.computed p t).count x + (if e = t then [name] else []).count x := by
      unfold BuildState.computed
      by_cases he : e = t
      · rw [if_pos he] at hv ⊢
        rw [List.filterMap_cons_some hv, ← List.singleton_append, List.count_append, Nat.add_comm]
      · rw [if_neg he] at hv ⊢
        rw [List.filterMap_cons_none hv]
        rfl
    rw [results, added, computed]
    omega

end Runs

end BuildState

/-- What generation keeps to in the stage `e`, in a scope whose records are kept in `o`. -/
def Law.running (p : Plan) (t e : Stage) (o : ScopeId) : Law where
  inv env s := Placed p o env s ∧ env.stage = e
  rel ss s s' := s.Runs p t (if e = t then Statement.collectIn Statement.results ss else []) s'
  ends _ := True
  refl s := by
    rw [Statement.collectIn, ite_self]
    exact .refl s
  trans {ss ss' _ _ _} h h' := by
    have both := h.trans h'
    rw [Statement.collectIn_append]
    split at both
    · next he =>
      rw [if_pos he]
      exact both
    · next he =>
      rw [if_neg he]
      exact both
  mono hi hr := ⟨hi.1.mono hr.advances, hi.2⟩
  loops := Placed.loops_of_stage
  ordinary _ := trivial
  located _ := trivial

namespace Build

open Law BuildState

variable {p : Plan} {t e : Stage} {o : ScopeId} {env : Env} {s s' : BuildState} {id : NodeId}
  {g : Generator}

theorem running_rel : (Law.running p t e o).rel [] s s' ↔ s.Runs p t [] s' := by
  show s.Runs p t (if e = t then Statement.collectIn Statement.results [] else []) s' ↔ _
  rw [Statement.collectIn, ite_self]

theorem running_sited : Law.Sited p (Law.running p t) where
  site hi := hi
  move _ placed he := ⟨placed, he⟩
  quiet _ ha hq := running_rel.2 (.of_quiet ha hq)
  scope h := running_rel.2 (running_rel.1 h)
  write h := running_rel.2 (running_rel.1 h)
  ends _ := trivial

theorem bindName_running (name : String) (frame : Option FrameId) :
    (Law.running p t e o).Keeps env (bindName id name frame) :=
  fun _ _ => running_rel.2 (.of_same (.of_eq rfl rfl rfl) rfl rfl)

theorem inBlock_running {step : Build Unit} (h : (Law.running p t e o).Keeps env step) :
    (Law.running p t e o).Leaves env (inBlock step) := by
  rintro s ⟨placed, rfl⟩
  unfold inBlock
  rw [meets_bind, meets_modifyHere, meets_bind]
  refine (h { s with stages := s.stages.modify env.stage StageBuild.openBlock }
    ⟨placed.mono (.of_eq rfl rfl rfl), rfl⟩).imp fun _ s' hr => ?_
  rw [meets_bind, meets_here, meets_bind, meets_modifyHere, meets_pure]
  exact (running_rel.1 hr).closeBlock

theorem running_callfree : (Law.running p t e o).Callfree := by
  refine callfree_ofStill running_sited.unmoved (fun env id name => .read (bindName_running name _))
    (fun {env s s' st} hi _ hc hr => ?_) inBlock_running
  obtain ⟨-, rfl⟩ := hi
  have added : s.Runs p t (if env.stage = t then st.collect Statement.results else []) s' := by
    rw [Statement.collect_eq, Statement.results_of_callees hc]
    exact hr
  exact running_rel.2 added.add

theorem declareVariable_running {value : NodeId} {readOnly : Bool} {name : String}
    {type : ValueType} {init : Expr} (hi : init.Silent) :
    (Law.running p t e o).Keeps env (declareVariable id value readOnly name type init) := by
  refine .bind (.mutability value readOnly) fun m => .bind (.recordKey id) fun key => ?_
  refine .bind (fun s hs => ?_) fun _ => bindName_running name none
  obtain ⟨-, rfl⟩ := hs
  have silent : (Statement.declare name type (some init) m (some key)).results = [] :=
    Statement.results_of_callees (Statement.declare_callees (silentCode_some hi))
  refine running_rel.2 (Runs.add (e := env.stage) ?_)
  rw [Statement.collect_eq, silent, List.nil_append]
  show s.Runs p t (if env.stage = t then Statement.collectIn Statement.results [] else []) s
  rw [Statement.collectIn, ite_self]
  exact .refl s

/-! ### Calls -/

theorem result?_of_not_computes {v : Visit} (h : v.computes = false) : v.result? p t = none :=
  if_neg fun hv => by
    rw [h] at hv
    cases hv.2.2

theorem result?_visitAt {f : FunctionId} {args : List NodeId} {x : String}
    (hn : p.node id = .ok (.call f args)) (hm : (visitAt env s id none).recalls = false) :
    (visitAt env s id (some (localName x))).result? p t = if env.stage = t then some x else none := by
  have calls : p.calls id = true := by
    unfold Plan.calls
    rw [hn]
    rfl
  by_cases he : env.stage = t
  · rw [if_pos he]
    exact if_pos ⟨congrArg some he, calls, computes_of_missed hm⟩
  · rw [if_neg he]
    exact if_neg fun hv => he (Option.some.inj hv.1)

/-- The visit at a call binds a result when a statement is added that runs the call. -/
theorem buildCall_running (hg : g.Silent) (hr : (Law.running p t e o).Runs g) {f : FunctionId}
    {args : List NodeId} (hn : p.node id = .ok (.call f args))
    (hi : (Law.running p t e o).inv env s) :
    Meets (buildCall g id f args) env s (fun _ => True) fun code s' =>
      s.Runs p t [] { s' with visits := visitAt env s id code :: s'.visits } := by
  have hL : (Law.running p t e o).Callfree := running_callfree
  have unmoved : (Law.running p t e o).Unmoved := running_sited.unmoved
  unfold buildCall
  refine meets_recalling (fun _ => rfl)
    (fun b hb sees => (Runs.refl s).log (result?_of_not_computes (idle_of_sees hb sees)))
    fun missed => ?_
  dsimp only
  rw [meets_bind]
  refine (unmoved.keeps (registerFunction_still f) s hi).imp fun entry s₁ read => ?_
  refine meets_check fun _ => ?_
  have hi₁ := (Law.running p t e o).mono hi read
  show Meets (useFunction f >>= _) env s₁ _ _
  rw [meets_bind]
  refine (unmoved.keeps (useFunction_still f) s₁ hi₁).imp fun _ s₂ use => ?_
  have hi₂ := (Law.running p t e o).mono hi₁ use
  have arguments : (Law.running p t e o).Yields env
      ((args.zip entry.inputs).mapM fun a => buildArgument g entry.name a.1 a.2) Expr.AllSilent :=
    .all fun a _ => Keeps.yields (.buildArgument (running_sited.serves hr))
      (argument_silent hg entry.name a.1 a.2)
  rw [meets_bind]
  refine (arguments s₂ hi₂).imp fun values s₃ ⟨generate, silent⟩ => ?_
  have hi₃ := (Law.running p t e o).mono hi₂ generate
  have prepared : s.Runs p t [] s₃ :=
    ((running_rel.1 read).trans (running_rel.1 use)).trans (running_rel.1 generate)
  refine (meets_ite _ _ _).2 ⟨fun _ => ?_, fun _ => ?_⟩
  -- the call of a function without a result is a statement of its own
  · show s.Runs p t [] _
    let st : Statement := .call entry.name values
    have stated : s.Runs p t []
        { s₃ with stages := s₃.stages.modify env.stage fun b => b.add st } := by
      refine Runs.add ?_
      have none : st.collect Statement.results = [] := rfl
      rw [none, ite_self]
      exact prepared
    exact stated.log (result?_of_not_computes (Bool.and_false _))
  · unfold declareTemp
    rw [meets_bind, meets_bind]
    refine (hL.useType entry.result s₃ hi₃).imp fun _ s₄ spell => ?_
    have hi₄ := (Law.running p t e o).mono hi₃ spell
    rw [meets_bind]
    have temp : (Law.running p t e o).Keeps env claimTemp := hL.claimTemp.keeps
    refine (temp s₄ hi₄).imp fun x s₅ claim => ?_
    have claimed := (prepared.trans (running_rel.1 spell)).trans (running_rel.1 claim)
    rw [meets_bind]
    unfold addStatement
    rw [meets_modifyHere, meets_pure, meets_bind]
    show s.Runs p t [] _
    exact claimed.run (.of_eq rfl rfl rfl) rfl (result?_visitAt hn missed)

/-! ### All nodes -/

/-- A statement without blocks that runs no call. -/
theorem add_running {st : Statement} (hr : st.results = []) (hb : st.blocks = []) :
    (Law.running p t e o).Keeps env (addStatement st) := by
  intro s _
  refine running_rel.2 (Runs.add (e := env.stage) ?_)
  rw [Statement.collect_eq, hr, hb, List.nil_append, Statement.collectIn, ite_self]
  exact .refl s

/-- Generation binds one result for each visit at a call that is not answered from memory. -/
theorem generator_running : ∀ fuel e o, (Law.running p t e o).Runs (generator fuel) := by
  refine running_sited.generator (fun _ _ _ _ => (meets_true _).imp fun _ _ _ => trivial) ?_
  intro e o depth env s id n hr hi hn
  have silent : (generator depth).Silent := generator_silent depth
  by_cases hcall : n.isCall
  · cases n with
    | call f args =>
      exact (buildCall_running silent (hr e o) hn hi).imp fun _ _ h => running_rel.2 h
    | _ => cases hcall
  · have code : (Law.running p t e o).Keeps env (generateNode (generator depth) id n) := by
      have serves : ∀ c, (Law.running p t e o).Serves env (generator depth) c := fun c =>
        running_sited.serves (hr e o)
      cases hspecial : n.isSpecial with
      | true =>
        cases n with
        | var value name readOnly =>
          exact .map _ (running_callfree.buildVariable silent (running_sited.typeOf id) (serves value)
            fun _ _ _ _ hs => declareVariable_running hs)
        | varying | context | contextValue | cache =>
          exact running_sited.generateShifting hr hn rfl fun _ _ => add_running rfl rfl
        | _ => cases hspecial
      | false =>
        intro s hi
        obtain rfl := hi.1.plan
        refine running_callfree.generateOrdinary silent hn hspecial (running_sited.typeOf id) serves
          ?_ s hi
        rintro f args rfl
        exact absurd rfl hcall
    refine (code s hi).imp fun code s' h => running_rel.2 ((running_rel.1 h).log (if_neg fun hv => ?_))
    have calls : p.calls id = true := hv.2.1
    unfold Plan.calls at calls
    rw [hn] at calls
    exact hcall calls

/-- After a run the body of a stage binds the results that the visits at calls bound. -/
theorem results_of_run {rs : List (Stage × NodeId)} (h : run p rs = .ok s) (t : Stage) :
    (Statement.collectIn Statement.results (s.stages.get t).outer.statements).Perm
      (s.computed p t) := by
  obtain ⟨s₀, hanalyze, hgenerate⟩ := of_run h
  obtain ⟨regular, quiet, -⟩ := analyze_covers _ hanalyze
  have runs := running_rel.1 (running_sited.generate (L := Law.running p t)
    (fun h => running_rel.2 (running_rel.1 h)) generator_running
    (fun t => ⟨.root regular _ t, rfl⟩) hgenerate)
  have none : s₀.results t = [] := by
    unfold BuildState.results StageBuild.collect
    rw [quiet.inner t, quiet.outer t]
    cases t <;> rfl
  have unvisited : s₀.computed p t = [] := by
    unfold BuildState.computed
    rw [quiet.visits]
    rfl
  have body : s.results t =
      Statement.collectIn Statement.results (s.stages.get t).outer.statements := by
    unfold BuildState.results StageBuild.collect
    rw [(run_stands h).inner_eq_nil t]
    rfl
  refine List.perm_iff_count.2 fun x => ?_
  have balance := runs.balance x
  rw [none, unvisited, body] at balance
  simpa using balance

end Build

/-! ## Calls that run once -/

namespace BuildState

/-- The visits of a key under a context at which the node has a value. -/
def valued (s : BuildState) (k : CacheKey) (f : FrameId) : List Visit :=
  s.visits.filter fun v => v.key = k && (v.frame = f && v.code.isSome)

/-- The calls in the body of a stage whose results are what a key gives under a context. -/
def callsUnder (s : BuildState) (t : Stage) (k : CacheKey) (f : FrameId) : List String :=
  (Statement.collectIn Statement.results (s.stages.get t).outer.statements).filter fun x =>
    (s.valued k f).any fun v => v.code.bind Expr.localName? = some x

/-- Under a context a node runs one call, and every reference to it reads the result. -/
def CallsOnce (s : BuildState) (t : Stage) (k : CacheKey) (f : FrameId) : Prop :=
  ∃ x, s.callsUnder t k f = [x] ∧ ∀ v ∈ s.valued k f, v.code = some (localName x)

variable {p : Plan} {s : BuildState} {k : CacheKey} {t : Stage} {f : FrameId} {v w : Visit}
  {older : List Visit}

theorem mem_valued : v ∈ s.valued k f ↔
    v ∈ s.visits ∧ v.key = k ∧ v.frame = f ∧ v.code.isSome = true := by
  unfold valued
  rw [List.mem_filter, Bool.and_eq_true, Bool.and_eq_true, decide_eq_true_eq, decide_eq_true_eq]

/-- What was computed last before a question. -/
def lastBefore (k : CacheKey) (v : Visit) (older : List Visit) : Option Visit :=
  Visit.last? k (older.rtake v.since)

theorem of_lastBefore (h : lastBefore k v older = some w) :
    w ∈ older ∧ w.key = k ∧ w.computes = true := by
  have found := List.find?_some h
  rw [Bool.and_eq_true, decide_eq_true_eq] at found
  exact ⟨List.mem_of_mem_drop (List.mem_of_find?_eq_some h), found⟩

theorem exists_suffix_of_mem {α : Type} {a : α} {l : List α} (h : a ∈ l) : ∃ r, a :: r <:+ l := by
  obtain ⟨front, r, rfl⟩ := List.append_of_mem h
  exact ⟨r, List.suffix_append _ _⟩

namespace Remembers

variable (hs : s.Remembers k)

include hs

theorem leaves_of_computes (hw : w ∈ s.visits) (hk : w.key = k) (hc : w.computes = true) :
    ∃ x, w.code = some (localName x) ∧
      w.leaves = some ⟨x, w.entry.currentBlock, some w.frame⟩ := by
  obtain ⟨r, suffix⟩ := exists_suffix_of_mem hw
  obtain ⟨x, hx⟩ := (hs.told w r suffix hk).computed hc
  refine ⟨x, hx, ?_⟩
  unfold Visit.leaves
  rw [hx]
  rfl

/-- A question that is answered from memory has the answer of the last computation before, which was
made under the same context. -/
theorem of_recalls (hv : v :: older <:+ s.visits) (hk : v.key = k) (h : v.recalls = true) :
    ∃ w, lastBefore k v older = some w ∧ w.frame = v.frame ∧ w.code = v.code := by
  have recollects := hs.told v older hv hk
  obtain ⟨b, hb, sees⟩ := Visit.recalls_iff.1 h
  obtain ⟨w, hw, hleaves⟩ := Option.bind_eq_some_iff.1 (recollects.bound.symm.trans hb)
  obtain ⟨hmem, hkey, hc⟩ := of_lastBefore hw
  have older' : older ⊆ s.visits := fun u hu => hv.subset (.tail _ hu)
  obtain ⟨x, hx, hleaves'⟩ := hs.leaves_of_computes (older' hmem) hkey hc
  cases hleaves.symm.trans hleaves'
  exact ⟨w, hw, sees.1 _ rfl, hx.trans (recollects.recalled _ hb h).symm⟩

/-- Where only the outermost block is open a question is answered from memory exactly when the last
computation was made under the same context. -/
theorem recalls_iff (flat : s.Flat) (hv : v :: older <:+ s.visits) (hk : v.key = k) :
    v.recalls = true ↔ ∃ w, lastBefore k v older = some w ∧ w.frame = v.frame := by
  constructor
  · intro h
    obtain ⟨w, hw, hf, -⟩ := hs.of_recalls hv hk h
    exact ⟨w, hw, hf⟩
  rintro ⟨w, hw, hf⟩
  obtain ⟨hmem, hkey, hc⟩ := of_lastBefore hw
  have hmem' : w ∈ s.visits := hv.subset (.tail _ hmem)
  obtain ⟨x, -, hleaves⟩ := hs.leaves_of_computes hmem' hkey hc
  have outermost : w.entry.currentBlock = .outermost := by
    have head := StageBuild.head?_openBlocks (b := w.entry)
    rw [flat.visits w hmem'] at head
    exact (Option.some.inj head).symm
  have hb : v.bound = some ⟨x, w.entry.currentBlock, some w.frame⟩ := by
    rw [(hs.told v older hv hk).bound, ← hleaves]
    exact congrArg (·.bind Visit.leaves) hw
  refine Visit.recalls_iff.2 ⟨_, hb, fun f hf' => ?_, StageBuild.isOpen_iff.2 ?_⟩
  · cases hf'
    exact hf
  · rw [outermost, flat.visits v (hv.subset (.head _))]
    exact .head _

/-- What a reference gives was computed under the same context, for this reference or before. -/
theorem source (hv : v :: older <:+ s.visits) (h : v ∈ s.valued k f) :
    ∃ w ∈ v :: older, w ∈ s.valued k f ∧ w.computes = true ∧ w.code = v.code := by
  obtain ⟨hmem, hk, rfl, hcode⟩ := mem_valued.1 h
  cases hr : v.recalls with
  | false => exact ⟨v, .head _, h, Visit.computes_of_not_recalls hr hcode, rfl⟩
  | true =>
    obtain ⟨w, hw, hf, hcode'⟩ := hs.of_recalls hv hk hr
    obtain ⟨hmem, hkey, hc⟩ := of_lastBefore hw
    refine ⟨w, .tail _ hmem, mem_valued.2 ⟨hv.subset (.tail _ hmem), hkey, hf, ?_⟩, hc, hcode'⟩
    rw [hcode']
    exact hcode

end Remembers

end BuildState

namespace Build

open BuildState

variable {p : Plan} {rs : List (Stage × NodeId)} {s : BuildState} {k : CacheKey} {t : Stage}
  {id : FunctionId} {args : List NodeId} {f : FrameId} {v w : Visit} {older : List Visit}

theorem nodup_computed (h : run p rs = .ok s) (t : Stage) : (s.computed p t).Nodup := by
  refine (results_of_run h t).nodup_iff.1 (((run_stands h).nodup_boundIn t).sublist ?_)
  refine Statement.collectIn_sublist (fun st => ?_) _
  unfold Statement.results
  split
  · exact .refl _
  · exact List.nil_sublist _

/-- What a call computes is the name of a result. -/
theorem result?_of_computes (h : run p rs = .ok s) (hk : p.node k.node = .ok (.call id args))
    (ht : k.stage = some t) (hv : v ∈ s.visits) (hkey : v.key = k) (hc : v.computes = true) :
    ∃ x, v.code = some (localName x) ∧ v.result? p t = some x := by
  obtain ⟨x, hx, -⟩ := (run_remembers h hk).leaves_of_computes hv hkey hc
  subst hkey
  have calls : p.calls v.key.node = true := by
    unfold Plan.calls
    rw [hk]
    rfl
  refine ⟨x, hx, ?_⟩
  unfold Visit.result?
  rw [if_pos ⟨ht, calls, hc⟩, hx]
  rfl

theorem result?_of_valued (h : run p rs = .ok s) (hk : p.node k.node = .ok (.call id args))
    (ht : k.stage = some t) {x : String} (hx : ∀ w ∈ s.valued k f, w.code = some (localName x))
    (hv : v ∈ s.valued k f) (hc : v.computes = true) : v.result? p t = some x := by
  obtain ⟨hmem, hkey, -, -⟩ := mem_valued.1 hv
  obtain ⟨y, hy, result⟩ := result?_of_computes h hk ht hmem hkey hc
  cases hy.symm.trans (hx v hv)
  exact result

/-- When no reference but the first under a context computes the value, they all read one name. -/
theorem exists_name (h : run p rs = .ok s) (hk : p.node k.node = .ok (.call id args))
    (hf : s.valued k f ≠ [])
    (first : ∀ v older, v :: older <:+ s.visits → v ∈ s.valued k f → v.computes = true →
      ∀ w ∈ older, w ∉ s.valued k f) :
    ∃ x, ∃ v ∈ s.valued k f, v.computes = true ∧
      ∀ w ∈ s.valued k f, w.code = some (localName x) := by
  have hs := run_remembers h hk
  obtain ⟨v, hv⟩ := List.exists_mem_of_ne_nil _ hf
  obtain ⟨r, suffix⟩ := exists_suffix_of_mem (mem_valued.1 hv).1
  obtain ⟨u, -, hu, hc, -⟩ := hs.source suffix hv
  obtain ⟨hmem, hkey, -, -⟩ := mem_valued.1 hu
  obtain ⟨x, hx, -⟩ := hs.leaves_of_computes hmem hkey hc
  refine ⟨x, u, hu, hc, fun w hw => ?_⟩
  obtain ⟨r, suffix⟩ := exists_suffix_of_mem (mem_valued.1 hw).1
  obtain ⟨u', -, hu', hc', hcode⟩ := hs.source suffix hw
  -- of two references that compute the value neither comes after the other
  obtain ⟨older, hold⟩ := exists_suffix_of_mem hmem
  obtain ⟨older', hold'⟩ := exists_suffix_of_mem (mem_valued.1 hu').1
  rw [← hcode, ← hx]
  rcases List.suffix_or_suffix_of_suffix hold hold' with before | before
  · rcases List.suffix_cons_iff.1 before with he | before
    · rw [(List.cons.inj he).1]
    · exact absurd hu (first u' older' hold' hu' hc' u (before.subset (.head _)))
  · rcases List.suffix_cons_iff.1 before with he | before
    · rw [(List.cons.inj he).1]
    · exact absurd hu' (first u older hold hu hc u' (before.subset (.head _)))

/-- Under a context a node runs one call, whose result every reference reads, exactly when each
reference but the first comes when the last call of the node was one under this context. -/
theorem callsOnce_iff (h : run p rs = .ok s) (flat : p.Unbranched)
    (hk : p.node k.node = .ok (.call id args)) (ht : k.stage = some t) (hf : s.valued k f ≠ []) :
    s.CallsOnce t k f ↔ ∀ v older, v :: older <:+ s.visits → v ∈ s.valued k f →
      (∃ w ∈ older, w ∈ s.valued k f) → ∃ w, lastBefore k v older = some w ∧ w.frame = f := by
  have hs := run_remembers h hk
  have steady := run_flat flat h
  constructor
  · rintro ⟨x, -, hx⟩ v older suffix hv ⟨w, hw, hwv⟩
    obtain ⟨hmem, hkey, rfl, hcode⟩ := mem_valued.1 hv
    refine (hs.recalls_iff steady suffix hkey).1 ?_
    by_contra hr
    have again : v.computes = true :=
      Visit.computes_of_not_recalls (Bool.eq_false_iff.2 hr) hcode
    obtain ⟨r, hr⟩ := exists_suffix_of_mem hw
    have suffix' : w :: r <:+ s.visits := (hr.trans (List.suffix_cons v older)).trans suffix
    obtain ⟨u, hu, huv, hc, -⟩ := hs.source suffix' hwv
    have bindsV := result?_of_valued h hk ht hx hv again
    have bindsU := result?_of_valued h hk ht hx huv hc
    have distinct : ((v :: older).filterMap (Visit.result? p t)).Nodup :=
      (nodup_computed h t).sublist (suffix.sublist.filterMap _)
    rw [List.filterMap_cons_some bindsV] at distinct
    exact (List.nodup_cons.1 distinct).1 (List.mem_filterMap.2 ⟨u, hr.subset hu, bindsU⟩)
  · intro steadily
    obtain ⟨x, u, hu, hc, hx⟩ := exists_name h hk hf fun v older suffix hv hc w hw hwv => by
      obtain ⟨hmem, hkey, rfl, -⟩ := mem_valued.1 hv
      have recalls := (hs.recalls_iff steady suffix hkey).2 (steadily v older suffix hv ⟨w, hw, hwv⟩)
      unfold Visit.computes at hc
      rw [recalls] at hc
      cases hc
    refine ⟨x, ?_, hx⟩
    have results := results_of_run h t
    have bound : x ∈ s.computed p t :=
      List.mem_filterMap.2 ⟨u, (mem_valued.1 hu).1, result?_of_valued h hk ht hx hu hc⟩
    have read : ∀ y, (s.valued k f).any (fun v => v.code.bind Expr.localName? = some y) = true ↔
        y = x := by
      intro y
      rw [List.any_eq_true]
      constructor
      · rintro ⟨v, hv, hy⟩
        rw [hx v hv] at hy
        exact (Option.some.inj (of_decide_eq_true hy)).symm
      · rintro rfl
        refine ⟨u, hu, decide_eq_true ?_⟩
        rw [hx u hu]
        rfl
    have once := List.count_eq_one_of_mem (nodup_computed h t) bound
    unfold BuildState.callsUnder
    rw [List.filter_congr fun y _ => Bool.eq_iff_iff.2 ((read y).trans beq_iff_eq.symm),
      List.filter_beq, results.count_eq, once]
    rfl

/-- A native function over a value that two contexts lend, under the first of them, under the second
and under one of them again. -/
def called (again : NodeId) : Graph :=
  { Graph.ofNodes [.const .float [1], .const .float [2], .contextValue "x" none, .call ⟨0⟩ [⟨2⟩],
      .context ⟨3⟩ [("x", ⟨0⟩)], .context ⟨3⟩ [("x", ⟨1⟩)], .operator .add ⟨4⟩ ⟨5⟩,
      .operator .add ⟨6⟩ again] with
    functions := #[⟨"float f(float x) \x7b return x; \x7d", .glsl, []⟩] }

theorem unbranched_called (again : NodeId) :
    (Plan.ofGraph (called again) (.ofDialect .glsl)).Unbranched :=
  .of_all rfl

/-- References under one context that follow each other read the result of one call. -/
theorem called_callsOnce :
    ∃ s, run (.ofGraph (called ⟨5⟩) (.ofDialect .glsl)) [(.fragment, ⟨7⟩)] = .ok s ∧
      (s.valued ⟨.root, ⟨3⟩, some .fragment⟩ ⟨2⟩).length = 2 ∧
      s.CallsOnce .fragment ⟨.root, ⟨3⟩, some .fragment⟩ ⟨2⟩ := by
  let key : CacheKey := ⟨.root, ⟨3⟩, some .fragment⟩
  have follows : leaves (fun s => (s.valued key ⟨2⟩).length = 2 && s.visits.tails.all fun l =>
        l.head?.all fun v => v.frame ≠ ⟨2⟩ || !(l.tail.any fun w => w.key = key && w.frame = ⟨2⟩) ||
          (lastBefore key v l.tail).any fun w => w.frame = ⟨2⟩)
      (run (.ofGraph (called ⟨5⟩) (.ofDialect .glsl)) [(.fragment, ⟨7⟩)]) = true := by
    decide +kernel
  obtain ⟨s, hs, hfollows⟩ := of_leaves follows
  obtain ⟨two, each⟩ := Bool.and_eq_true_iff.1 hfollows
  have length := of_decide_eq_true two
  refine ⟨s, hs, length, ?_⟩
  have references : s.valued key ⟨2⟩ ≠ [] := fun none => by
    rw [none] at length
    cases length
  refine (callsOnce_iff hs (unbranched_called _) rfl rfl references).2 ?_
  rintro v older suffix hv ⟨w, hw, hwv⟩
  obtain ⟨-, hkey, hframe, -⟩ := mem_valued.1 hv
  obtain ⟨-, hkey', hframe', -⟩ := mem_valued.1 hwv
  have found := List.all_eq_true.1 each _ ((List.mem_tails _ _).2 suffix)
  have before : older.any (fun w => w.key = key && w.frame = ⟨2⟩) = true :=
    List.any_eq_true.2 ⟨w, hw, by simp [hkey', hframe']⟩
  simpa [hframe, before, Option.any_eq_true] using found

/-- When a context lends its value again after another one, the call runs again. -/
theorem called_calls_twice :
    (build (called ⟨4⟩) ⟨none, some ⟨7⟩, none⟩ (.ofDialect .glsl)).isOk = true ∧
      ∃ p, Plan.make (called ⟨4⟩) (.ofDialect .glsl) [⟨7⟩] = .ok p ∧ p.Unbranched ∧
        ∃ s, run p [(.fragment, ⟨7⟩)] = .ok s ∧
          (s.valued ⟨.root, ⟨3⟩, some .fragment⟩ ⟨1⟩).length = 2 ∧
          ¬s.CallsOnce .fragment ⟨.root, ⟨3⟩, some .fragment⟩ ⟨1⟩ := by
  have twice : leaves (fun s => (s.valued ⟨.root, ⟨3⟩, some .fragment⟩ ⟨1⟩).length = 2 &&
        s.callsUnder .fragment ⟨.root, ⟨3⟩, some .fragment⟩ ⟨1⟩ = ["nodeVar0", "nodeVar2"])
      (run (.ofGraph (called ⟨4⟩) (.ofDialect .glsl)) [(.fragment, ⟨7⟩)]) = true := by
    decide +kernel
  obtain ⟨s, hs, hcalls⟩ := of_leaves twice
  obtain ⟨two, calls⟩ := Bool.and_eq_true_iff.1 hcalls
  refine ⟨by decide +kernel, _, rfl, unbranched_called _, s, hs, of_decide_eq_true two, ?_⟩
  rintro ⟨x, hx, -⟩
  cases hx.symm.trans (of_decide_eq_true calls)

end Build

end ShaderGraph
