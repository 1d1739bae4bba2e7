import Mathlib.Data.List.DropRight
import ShaderGraph.Proofs.Generation
import ShaderGraph.Proofs.Machine
import ShaderGraph.Proofs.ScopedCode

/-!
# Values that are recalled

A question for the code of a node is answered from memory when the name that the node is bound to can
be seen (`Visit.recalls`); otherwise the value is computed. The memory of a call holds one name: that
of the value that was computed last, with its context (`BuildState.Remembers`). Values of the node
that were computed under other contexts before are forgotten.
-/

namespace ShaderGraph

open Build

namespace Visit

variable {v : Visit} {k : CacheKey}

/-- The context around the question. -/
def frame (v : Visit) : FrameId := Frame.current v.frames

/-- Whether the name that the node was bound to is the answer. -/
def recalls (v : Visit) : Bool :=
  v.bound.any fun b => b.frame.all (· = v.frame) && v.entry.isOpen b.block

theorem recalls_iff : v.recalls = true ↔ ∃ b, v.bound = some b ∧ v.Sees b := by
  unfold recalls Sees
  simp only [Option.any_eq_true, Bool.and_eq_true, Option.all_eq_true, decide_eq_true_eq]
  rfl

/-- Whether the answer is a value that was computed for the question. -/
def computes (v : Visit) : Bool := !v.recalls && v.code.isSome

theorem computes_of_not_recalls (hr : v.recalls = false) (hc : v.code.isSome = true) :
    v.computes = true := by
  unfold computes
  rw [hr, hc]
  rfl

/-- What the node is bound to when the value that was computed for the question has a name. -/
def leaves (v : Visit) : Option BoundName :=
  (v.code.bind Expr.localName?).map fun name => ⟨name, v.entry.currentBlock, some v.frame⟩

/-- The visit at which the value of a node was computed last. -/
def last? (k : CacheKey) (visits : List Visit) : Option Visit :=
  visits.find? fun v => v.key = k && v.computes

/-- A visit that was logged after some others, of which `v.since` were there when it was asked for,
recalls what the last computation among these left; and what it computes has a name. -/
structure Recollects (k : CacheKey) (older : List Visit) (v : Visit) : Prop where
  bound : v.bound = (last? k (older.rtake v.since)).bind leaves
  recalled : ∀ b, v.bound = some b → v.recalls = true → v.code = some (localName b.name)
  computed : v.computes = true → ∃ x, v.code = some (localName x)

theorem last?_cons_of_ne {visits : List Visit} (h : v.key ≠ k) :
    last? k (v :: visits) = last? k visits :=
  List.find?_cons_of_neg (by simp [h])

theorem last?_cons_of_computes {visits : List Visit} (hk : v.key = k) (h : v.computes = true) :
    last? k (v :: visits) = some v :=
  List.find?_cons_of_pos (by simp [hk, h])

theorem last?_cons_of_not {visits : List Visit} (h : v.computes = false) :
    last? k (v :: visits) = last? k visits :=
  List.find?_cons_of_neg (by simp [h])

end Visit

namespace BuildState

variable {p : Plan} {k : CacheKey} {s s' s'' : BuildState}

/-- The memory of a node is what the last computation of its value left, and so it was for each
question. -/
structure Remembers (k : CacheKey) (s : BuildState) : Prop where
  bound : s.cache.bound? k = (Visit.last? k s.visits).bind Visit.leaves
  told : ∀ v older, v :: older <:+ s.visits → v.key = k → v.Recollects k older

theorem Remembers.of_same (h : s.Remembers k) (hv : s'.visits = s.visits)
    (hb : s'.cache.bound? k = s.cache.bound? k) : s'.Remembers k where
  bound := by
    rw [hb, hv]
    exact h.bound
  told := hv ▸ h.told

/-- A visit is logged that leaves the memory as it is. -/
theorem Remembers.log {v : Visit} (h : s.Remembers k)
    (hl : Visit.last? k (v :: s.visits) = Visit.last? k s.visits)
    (hv : v.key = k → v.Recollects k s.visits) :
    BuildState.Remembers k { s with visits := v :: s.visits } where
  bound := h.bound.trans (congrArg (·.bind Visit.leaves) hl.symm)
  told w older hw hk := by
    rcases List.suffix_cons_iff.1 hw with he | hw
    · obtain ⟨rfl, rfl⟩ := List.cons.inj he
      exact hv hk
    · exact h.told w older hw hk

/-- What happens between two states of generation to the blocks, the visits and the memory of a
node. -/
structure Minds (p : Plan) (k : CacheKey) (s s' : BuildState) : Prop where
  advances : s.Advances p s'
  blocks : ∀ u, (s'.stages.get u).openBlocks = (s.stages.get u).openBlocks
  visits : s.visits <:+ s'.visits
  remembers : s.Remembers k → s'.Remembers k

namespace Minds

theorem refl (s : BuildState) : s.Minds p k s := ⟨.refl s, fun _ => rfl, List.suffix_rfl, id⟩

theorem trans (h : s.Minds p k s') (h' : s'.Minds p k s'') : s.Minds p k s'' where
  advances := h.advances.trans h'.advances
  blocks u := (h'.blocks u).trans (h.blocks u)
  visits := h.visits.trans h'.visits
  remembers := h'.remembers ∘ h.remembers

/-- A change that visits nothing and does not bind the node. -/
theorem of_same (ha : s.Advances p s') (hv : s'.visits = s.visits)
    (hb : s'.cache.bound? k = s.cache.bound? k)
    (ho : ∀ u, (s'.stages.get u).openBlocks = (s.stages.get u).openBlocks) : s.Minds p k s' where
  advances := ha
  blocks := ho
  visits := hv ▸ List.suffix_rfl
  remembers h := h.of_same hv hb

theorem of_quiet (ha : s.Advances p s') (hq : s.Quiet s') : s.Minds p k s' := by
  refine of_same ha hq.visits (hq.bound k) fun u => ?_
  unfold StageBuild.openBlocks
  rw [hq.inner, hq.outer]

theorem modify (s : BuildState) (e : Stage) {f : StageBuild → StageBuild}
    (hf : ∀ b, (f b).openBlocks = b.openBlocks) :
    s.Minds p k { s with stages := s.stages.modify e f } :=
  of_same (.of_eq rfl rfl rfl) rfl rfl fun u => s.stages.map_get_modify e u hf

end Minds

end BuildState

/-- What generation keeps to in the stage `e`, in a scope whose records are kept in `o`. -/
def Law.minding (p : Plan) (k : CacheKey) (e : Stage) (o : ScopeId) : Law where
  inv env s := (Placed p o env s ∧ env.stage = e) ∧ s.Remembers k
  rel _ := BuildState.Minds p k
  ends _ := True
  refl := .refl
  trans := .trans
  mono hi hr := ⟨⟨hi.1.1.mono hr.advances, hi.1.2⟩, hr.remembers hi.2⟩
  loops l hi := ⟨⟨hi.1.1.loops l, hi.1.2⟩, hi.2⟩
  ordinary _ := trivial
  located _ := trivial

/-- The state after the value of a node was bound to a name. -/
def BuildState.binding (s : BuildState) (env : Env) (id : NodeId) (name : String) : BuildState :=
  { s with
    cache := s.cache.bind env.scope id (some env.stage)
      ⟨name, (s.stages.get env.stage).currentBlock, some (Frame.current env.frames)⟩ }

namespace Build

open Law

variable {p : Plan} {k : CacheKey} {e : Stage} {o : ScopeId} {env : Env} {g : Generator}
  {s s' : BuildState} {id : NodeId}

theorem minding_sited : Law.Sited p (Law.minding p k) where
  site hi := hi.1
  move hi placed he := ⟨⟨placed, he⟩, hi.2⟩
  quiet _ := .of_quiet
  scope h := h
  write h := h
  ends _ := trivial

theorem minding_nested : (Law.minding p k e o).Nested where
  toStraight := straight_ofStill minding_sited.unmoved fun _ _ hr =>
    hr.trans (.modify _ _ fun _ => StageBuild.openBlocks_add)
  inBlock {env step} h s hi := by
    unfold inBlock
    rw [meets_bind, meets_modifyHere, meets_bind]
    have opened : s.Advances p
        { s with stages := s.stages.modify env.stage StageBuild.openBlock } := .of_eq rfl rfl rfl
    refine (h _ ⟨⟨hi.1.1.mono opened, hi.1.2⟩, hi.2.bound, hi.2.told⟩).imp fun _ s' hr => ?_
    rw [meets_bind, meets_here, meets_bind, meets_modifyHere, meets_pure]
    refine ⟨(opened.trans hr.advances).trans (.of_eq rfl rfl rfl), fun u => ?_, hr.visits, fun h => ?_⟩
    · exact PerStage.openBlocks_closed hr.blocks u
    · have remembers := hr.remembers ⟨h.bound, h.told⟩
      exact ⟨remembers.bound, remembers.told⟩

/-- A binding of another node. -/
theorem bindName_minding (hk : (⟨o, id, some e⟩ : CacheKey) ≠ k) (name : String)
    (frame : Option FrameId) : (Law.minding p k e o).Keeps env (bindName id name frame) := by
  rintro s ⟨⟨placed, rfl⟩, -⟩
  refine .of_same (.of_eq rfl rfl rfl) rfl ?_ fun _ => rfl
  have key : keyAt env s id = ⟨o, id, some env.stage⟩ := placed.keyAt
  unfold keyAt at key
  exact NodeCache.bound?_bind.trans (if_neg fun h => hk (key ▸ h.symm))

/-! ### Calls -/

/-- What asking for a value that is bound to a name as soon as it is computed ends with. -/
inductive Answers (R : BuildState → BuildState → Prop) (env : Env) (s : BuildState) (id : NodeId) :
    Option Expr → BuildState → Prop
  | recalled {b : BoundName} (hb : s.cache.bound? (keyAt env s id) = some b)
      (hs : (visitAt env s id none).Sees b) : Answers R env s id (some (localName b.name)) s
  | effect {s' : BuildState} (hm : (visitAt env s id none).recalls = false) (hr : R s s') :
      Answers R env s id none s'
  | computed {s' : BuildState} {x : String} (hm : (visitAt env s id none).recalls = false)
      (hr : R s s') : Answers R env s id (some (localName x)) (s'.binding env id x)

/-- The name that the node is bound to is the answer if it can be seen. -/
theorem meets_recalling {α : Type} {ends : Failure → Prop} {post : α → BuildState → Prop}
    {next : Option String → Build α} {code : String → α}
    (found : ∀ name, next (some name) = pure (code name))
    (seen : ∀ b, s.cache.bound? (keyAt env s id) = some b → (visitAt env s id none).Sees b →
      post (code b.name) s)
    (missed : (visitAt env s id none).recalls = false → Meets (next none) env s ends post) :
    Meets (boundName? id >>= next) env s ends post := by
  rw [meets_bind]
  refine meets_boundName.imp ?_
  rintro name _ ⟨rfl, hname⟩
  cases name with
  | none =>
    refine missed (Bool.eq_false_iff.2 fun hr => ?_)
    obtain ⟨b, hb, hs⟩ := Visit.recalls_iff.1 hr
    exact nomatch (hname b.name).2 ⟨b, hb, hs, rfl⟩
  | some name =>
    obtain ⟨b, hb, hs, rfl⟩ := (hname name).1 rfl
    rw [found, meets_pure]
    exact seen b hb hs

/-- The answer is recalled if possible, else it is computed. -/
theorem Answers.ask {R : BuildState → BuildState → Prop} {ends : Failure → Prop}
    {next : Option String → Build (Option Expr)}
    (found : ∀ name, next (some name) = pure (some (localName name)))
    (missed : (visitAt env s id none).recalls = false →
      Meets (next none) env s ends (Answers R env s id)) :
    Meets (boundName? id >>= next) env s ends (Answers R env s id) :=
  meets_recalling found (fun _ => .recalled) missed

/-- The value of a call is bound to a name as soon as it is computed. -/
theorem buildCall_answers {L : Law} (hL : L.Straight) (hi : L.inv env s) {f : FunctionId}
    {args : List NodeId} (h : ∀ c ∈ args, L.Serves env g c) :
    Meets (buildCall g id f args) env s L.ends (Answers (L.rel []) env s id) := by
  refine Answers.ask (fun _ => rfl) fun missed => ?_
  dsimp only
  rw [meets_bind]
  refine (hL.registerFunction f s hi).imp fun entry s₁ read => ?_
  refine (meets_ite _ _ _).2 ⟨fun _ => L.ordinary rfl, fun _ => ?_⟩
  show Meets (useFunction f >>= _) env s₁ _ _
  rw [meets_bind]
  refine (hL.useFunction f s₁ (L.mono hi read)).imp fun _ s₂ use => ?_
  have used := L.trans read use
  have arguments : L.Keeps env
      ((args.zip entry.inputs).mapM fun a => buildArgument g entry.name a.1 a.2) :=
    .mapM fun a ha => .buildArgument (h a.1 (List.of_mem_zip ha).1)
  rw [meets_bind]
  refine (arguments s₂ (L.mono hi used)).imp fun values s₃ generate => ?_
  have generated := L.trans used generate
  refine (meets_ite _ _ _).2 ⟨fun _ => ?_, fun _ => ?_⟩
  · have call : L.Keeps env (addStatement (.call entry.name values)) :=
      .add hL (.plain rfl rfl rfl) rfl
    show Meets (addStatement _ >>= _) env s₃ _ _
    rw [meets_bind]
    exact (call s₃ (L.mono hi generated)).imp fun _ _ hr => .effect missed (L.trans generated hr)
  · have declare : L.Keeps env
        (declareTemp entry.result (some (.call entry.name values)) .immutable) :=
      .declareTemp hL _ _ _
    show Meets (declareTemp _ _ _ >>= _) env s₃ _ _
    rw [meets_bind]
    exact (declare s₃ (L.mono hi generated)).imp fun _ _ hr =>
      .computed missed (L.trans generated hr)

/-- A value that cannot be answered from memory is computed. -/
theorem computes_of_missed {code : Expr} (h : (visitAt env s id none).recalls = false) :
    (visitAt env s id (some code)).computes = true :=
  Visit.computes_of_not_recalls h rfl

/-- Nothing is computed for a question that is answered from memory. -/
theorem idle_of_sees {code : Option Expr} {b : BoundName}
    (hb : s.cache.bound? (keyAt env s id) = some b) (hs : (visitAt env s id none).Sees b) :
    (visitAt env s id code).computes = false := by
  have recalls : (visitAt env s id code).recalls = true := Visit.recalls_iff.2 ⟨b, hb, hs⟩
  unfold Visit.computes
  rw [recalls]
  rfl

/-- What a question that was asked in an earlier state recollects. -/
theorem recollects_visitAt {code : Option Expr} (hkey : keyAt env s id = k) (hs : s.Remembers k)
    (hv : s.visits <:+ s'.visits)
    (hr : ∀ b, s.cache.bound? k = some b → (visitAt env s id code).recalls = true →
      code = some (localName b.name))
    (hc : (visitAt env s id code).computes = true → ∃ x, code = some (localName x)) :
    (visitAt env s id code).Recollects k s'.visits where
  bound := by
    have earlier : s'.visits.rtake s.visits.length = s.visits :=
      (List.suffix_iff_eq_drop.1 hv).symm
    show s.cache.bound? (keyAt env s id) = (Visit.last? k (s'.visits.rtake s.visits.length)).bind _
    rw [earlier, hkey, hs.bound]
  recalled b hb := hr b (hkey ▸ hb)
  computed := hc

/-- The visit at a call that cannot be answered from memory binds the node anew. -/
theorem minds_binding {x : String} (hkey : keyAt env s id = k) (hkey' : keyAt env s' id = k)
    (hm : (visitAt env s id none).recalls = false) (hs : s.Remembers k) (h : s.Minds p k s') :
    s.Minds p k { s'.binding env id x with
      visits := visitAt env s id (some (localName x)) :: s'.visits } := by
  have computes : (visitAt env s id (some (localName x))).computes = true := computes_of_missed hm
  have block : (s'.stages.get env.stage).currentBlock = (s.stages.get env.stage).currentBlock := by
    have heads := congrArg List.head? (h.blocks env.stage)
    rw [StageBuild.head?_openBlocks, StageBuild.head?_openBlocks] at heads
    exact Option.some.inj heads
  have memory := h.remembers hs
  refine ⟨h.advances.trans (.of_eq rfl rfl rfl), h.blocks, h.visits.trans (List.suffix_cons _ _),
    fun _ => ⟨?_, fun v older hv hk => ?_⟩⟩
  · have own : k = s'.cache.key env.scope id (some env.stage) := hkey'.symm
    show (s'.cache.bind env.scope id (some env.stage) _).bound? k = (Visit.last? k (_ :: _)).bind _
    rw [NodeCache.bound?_bind, if_pos own, Visit.last?_cons_of_computes hkey computes, block]
    rfl
  · rcases List.suffix_cons_iff.1 hv with he | hv
    · obtain ⟨rfl, rfl⟩ := List.cons.inj he
      refine recollects_visitAt hkey hs h.visits (fun b _ hr => ?_) fun _ => ⟨x, rfl⟩
      cases hm.symm.trans hr
    · exact memory.told v older hv hk

/-- The visit at a call, with what it leaves to remember. -/
theorem visit_minds {code : Option Expr} (hkey : keyAt env s id = k)
    (hkey' : ∀ s', s.Minds p k s' → keyAt env s' id = k) (hs : s.Remembers k)
    (h : Answers (BuildState.Minds p k) env s id code s') : s.Minds p k
      { s' with visits := visitAt env s id code :: s'.visits } := by
  cases h with
  | @recalled b hb sees =>
    have idle : (visitAt env s id (some (localName b.name))).computes = false :=
      idle_of_sees hb sees
    refine ⟨.of_eq rfl rfl rfl, fun _ => rfl, List.suffix_cons _ _, fun _ => ?_⟩
    refine hs.log (Visit.last?_cons_of_not idle) fun _ => ?_
    refine recollects_visitAt hkey hs List.suffix_rfl (fun b' hb' _ => ?_) fun hc => ?_
    · cases hb.symm.trans (hkey ▸ hb')
      rfl
    · cases idle.symm.trans hc
  | effect missed hr =>
    have idle : (visitAt env s id none).computes = false := Bool.and_false _
    refine ⟨hr.advances.trans (.of_eq rfl rfl rfl), hr.blocks, hr.visits.trans (List.suffix_cons _ _),
      fun _ => ?_⟩
    refine (hr.remembers hs).log (Visit.last?_cons_of_not idle) fun _ => ?_
    refine recollects_visitAt hkey hs hr.visits (fun _ _ hrecalls => ?_) fun hc => ?_
    · cases missed.symm.trans hrecalls
    · cases idle.symm.trans hc
  | computed missed hr => exact minds_binding hkey (hkey' _ hr) missed hs hr

/-! ### All nodes -/

/-- The declaration of a variable. -/
theorem declareVariable_minding (hk : (⟨o, id, some e⟩ : CacheKey) ≠ k) {value : NodeId}
    {readOnly : Bool} {x : String} {type : ValueType} {init : Expr} :
    (Law.minding p k e o).Keeps env (declareVariable id value readOnly x type init) := by
  refine .bind (.mutability value readOnly) fun m => .bind (.recordKey id) fun key => ?_
  exact .bind (fun s _ => .modify s env.stage fun _ => StageBuild.openBlocks_add)
    fun _ => bindName_minding hk x none

/-- A step for another node leaves the memory as it is. -/
theorem generateNode_minding {n : Node} (hg : ∀ e o, (Law.minding p k e o).Runs g)
    (hn : p.node id = .ok n) (hk : (⟨o, id, some e⟩ : CacheKey) ≠ k) :
    (Law.minding p k e o).Keeps env (generateNode g id n) := by
  have hL : ∀ {e o}, (Law.minding p k e o).Nested := minding_nested
  cases hspecial : n.isSpecial with
  | true =>
    cases n with
    | var value name readOnly =>
      exact .map _ (.buildVariable hL.toStraight (minding_sited.typeOf id)
        (minding_sited.serves (hg e o)) fun _ _ _ _ => declareVariable_minding hk)
    | varying | context | contextValue | cache =>
      exact minding_sited.generateShifting hg hn rfl fun _ _ =>
        .add hL.toStraight (.assign trivial) rfl
    | _ => cases hspecial
  | false =>
    exact .generateNested hL hspecial (fun name => .read (bindName_minding hk name _))
      (minding_sited.typeOf id) fun _ _ => minding_sited.serves (hg e o)

/-- Generation minds the memory of a call. -/
theorem generator_minds {f : FunctionId} {args : List NodeId} (hk : p.node k.node = .ok (.call f args)) :
    ∀ fuel e o, (Law.minding p k e o).Runs (generator fuel) := by
  refine minding_sited.generator (fun _ _ _ _ => (meets_true _).imp fun _ _ _ => trivial) ?_
  intro e o depth env s id n hg hi hn
  have ⟨⟨placed, he⟩, remembers⟩ := hi
  subst he
  by_cases own : (⟨o, id, some env.stage⟩ : CacheKey) = k
  · subst own
    cases hk.symm.trans hn
    have key : ∀ s', s.Minds p ⟨o, id, some env.stage⟩ s' → keyAt env s' id = _ := fun s' hr =>
      (placed.mono hr.advances).keyAt
    refine (buildCall_answers minding_nested.toStraight hi fun _ _ =>
      minding_sited.serves (hg _ _)).imp fun code s' h => ?_
    exact visit_minds placed.keyAt key remembers h
  · refine (generateNode_minding hg hn own s hi).imp fun code s' hr => ?_
    have other : (visitAt env s id code).key ≠ k := fun hv => own (placed.keyAt.symm.trans hv)
    refine hr.trans ⟨.of_eq rfl rfl rfl, fun _ => rfl, List.suffix_cons _ _, fun h => ?_⟩
    exact h.log (Visit.last?_cons_of_ne other) fun hv => absurd hv other

/-- After a run the memory of a call is what its last computation left, and so it was for each
question. -/
theorem run_remembers {rs : List (Stage × NodeId)} {f : FunctionId} {args : List NodeId}
    (h : run p rs = .ok s) (hk : p.node k.node = .ok (.call f args)) : s.Remembers k := by
  obtain ⟨s₀, hanalyze, hgenerate⟩ := of_run h
  obtain ⟨regular, quiet, -⟩ := analyze_covers _ hanalyze
  have start : (BuildState.start p).Remembers k :=
    ⟨rfl, fun v older hv => nomatch List.suffix_nil.1 hv⟩
  have remembers := start.of_same quiet.visits (quiet.bound k)
  have minds := minding_sited.generate (fun h => h) (generator_minds hk)
    (fun t => ⟨⟨.root regular _ t, rfl⟩, remembers⟩) hgenerate
  exact minds.remembers remembers

end Build

end ShaderGraph
