import ShaderGraph.Proofs.Coverage
import ShaderGraph.Proofs.Variables

/-!
# The code of variables

What a step for a node does to the accounts of a variable. The visits at the variable itself balance
with its declarations (`buildVariable_accounts`); a step for any other node leaves the accounts as
they are, whatever it does below (`generateNode_accounts`).

The body of a stage declares one name for each visit at a variable node that finds no open
declaration. So a node has one variable in a scope and a stage exactly when all visits but the
first find the declaration that the first one left (`oneVariable_iff`).
-/

namespace ShaderGraph

/-- The state after a name was declared by a statement and bound to a node under all contexts. -/
def BuildState.declaring (s : BuildState) (env : Env) (id : NodeId) (name : String)
    (st : Statement) : BuildState :=
  let stages := s.stages.modify env.stage fun b => b.add st
  { s with
    stages := stages
    cache := s.cache.bind env.scope id (some env.stage)
      ⟨name, (stages.get env.stage).currentBlock, none⟩ }

namespace Build

open Law

variable {p : Plan} {k : CacheKey} {t e : Stage} {o : ScopeId} {env : Env} {s s' : BuildState}
  {id value : NodeId} {name : Option String} {readOnly : Bool} {n : Node} {g : Generator}

theorem typeOf_accounts (id : NodeId) : (Law.accounts p k t e o).Keeps env (typeOf id) :=
  accounts_unmoved.keeps (typeOf_still id)

/-! ### The variable itself -/

theorem meets_declareVariable {x : String} {type : ValueType} {init : Expr}
    {post : Unit → BuildState → Prop}
    (h : ∀ m, post () (s.declaring env id x
      (.declare x type (some init) m (some (keyAt env s id))))) :
    Meets (declareVariable id value readOnly x type init) env s (fun _ => True) post := by
  unfold declareVariable
  rw [meets_bind]
  have looks : Law.looking.Keeps env (mutability value readOnly) := .mutability value readOnly
  refine (looks s trivial).imp fun m s' hs' => ?_
  obtain rfl : s' = s := hs'
  exact h m

/-- The name of a variable is used as long as the block of its declaration is open. -/
theorem meets_boundName? {ends : Failure → Prop} {post : Option String → BuildState → Prop}
    (hf : ∀ b, s.cache.bound? (keyAt env s id) = some b → b.frame = none)
    (found : ∀ b, s.cache.bound? (keyAt env s id) = some b →
      (visitAt env s id none).finds = true → post (some b.name) s)
    (missed : (visitAt env s id none).finds = false → post none s) :
    Meets (boundName? id) env s ends post := by
  have finds : (visitAt env s id none).finds = (s.cache.bound? (keyAt env s id)).any fun b =>
      (s.stages.get env.stage).openBlocks.contains b.block := rfl
  rw [finds] at found missed
  unfold boundName?
  rw [meets_bind, meets_read, meets_bind, meets_get]
  rw [← bound?_keyAt]
  cases hb : s.cache.bound? (keyAt env s id) with
  | none =>
    rw [hb] at missed
    exact missed rfl
  | some b =>
    rw [hb] at found missed
    dsimp only
    unfold isVisible
    rw [meets_bind, meets_bind, meets_read, meets_bind, meets_here, meets_pure, meets_pure, hf b hb]
    cases ho : (s.stages.get env.stage).isOpen b.block with
    | true =>
      refine found b rfl (List.contains_iff_mem.2 ?_)
      exact StageBuild.isOpen_iff.1 ho
    | false =>
      refine missed (Bool.eq_false_iff.2 fun hc => ?_)
      have isOpen := StageBuild.isOpen_iff.2 (List.contains_iff_mem.1 hc)
      rw [ho] at isOpen
      cases isOpen

/-- What a visit that began in the state `s` is bound to was declared before. -/
theorem answers_visitAt {code : Option Expr} (hkey : keyAt env s id = k) (hl : s.Ledger k)
    (hv : s.visits <:+ s'.visits)
    (hfound : (visitAt env s id none).finds = true →
      ∃ b, s.cache.bound? k = some b ∧ code = some (localName b.name))
    (hmissed : (visitAt env s id none).finds = false → ∃ x, code = some (localName x)) :
    (visitAt env s id code).Answers k s'.visits where
  bound b hb := by
    have hb' : s.cache.bound? (keyAt env s id) = some b := hb
    rw [hkey] at hb'
    obtain ⟨-, w, hw, hd⟩ := hl.bound b hb'
    exact ⟨w, hv.subset hw, hd⟩
  found hfinds := by
    obtain ⟨b, hb, hcode⟩ := hfound hfinds
    refine ⟨b, ?_, hcode⟩
    show s.cache.bound? (keyAt env s id) = some b
    rw [hkey, hb]
  missed := hmissed

/-- The visit at a variable balances with its declaration. -/
theorem accounts_declaring {x : String} {type : ValueType} {init : Expr} {m : Mutability}
    (hkey : keyAt env s id = k) (hkey' : keyAt env s' id = k) (he : env.stage = t)
    (hmissed : (visitAt env s id none).finds = false) (hl : s.Ledger k)
    (h : s.Accounts p k t [] s') :
    s.Accounts p k t []
      { s'.declaring env id x (.declare x type (some init) m (some (keyAt env s' id))) with
        visits := visitAt env s id (some (localName x)) :: s'.visits } := by
  subst he
  have declares : (visitAt env s id (some (localName x))).declared? k = some x :=
    Visit.declared?_of_missed hkey hmissed rfl
  refine h.visit (.of_eq rfl rfl rfl) (fun u => ?_) rfl (fun y => ?_)
    fun hl' => ⟨fun b hb => ?_, ?_⟩
  · show ((s'.stages.modify env.stage _).get u).openBlocks = _
    rw [PerStage.get_modify]
    split
    · exact StageBuild.openBlocks_add
    · rfl
  · show (((s'.stages.modify env.stage _).get env.stage).declared k).count y = _
    rw [PerStage.get_modify, if_pos rfl, StageBuild.count_declared_add, declares, hkey',
      Statement.declared, if_pos rfl]
    rfl
  -- the new binding is to the name that this visit declares
  · have bound : (s'.cache.bind env.scope id (some env.stage)
        ⟨x, (((s'.stages.modify env.stage fun b => b.add _).get env.stage)).currentBlock,
          none⟩).bound? k = some b := hb
    have own : k = s'.cache.key env.scope id (some env.stage) := hkey'.symm
    rw [NodeCache.bound?_bind, if_pos own] at bound
    cases bound
    exact ⟨rfl, _, .head _, declares⟩
  · refine ⟨fun _ => ?_, hl'.told⟩
    refine answers_visitAt hkey hl h.visits (fun hfinds => ?_) fun _ => ⟨x, rfl⟩
    rw [hmissed] at hfinds
    cases hfinds

/-- The visit at a variable that finds its declaration open. -/
theorem accounts_found {b : BoundName} (hkey : keyAt env s id = k)
    (hb : s.cache.bound? (keyAt env s id) = some b)
    (hfinds : (visitAt env s id none).finds = true) (hl : s.Ledger k) :
    s.Accounts p k t []
      { s with visits := visitAt env s id (some (localName b.name)) :: s.visits } := by
  refine (BuildState.Accounts.refl s).log (Visit.declared?_of_finds hfinds) fun _ _ => ?_
  refine answers_visitAt hkey hl List.suffix_rfl (fun _ => ?_) fun _ => ⟨b.name, rfl⟩
  exact ⟨b, hkey ▸ hb, rfl⟩

/-- The code of a variable is the name of a declaration that is open, or of a new one. -/
theorem buildVariable_accounts (hL : (Law.accounts p k t t k.scope).Closed) (ht : k.stage = some t)
    (hv : (Law.accounts p k t t k.scope).Serves env g value)
    (hs : (Law.accounts p k t t k.scope).inv env s) :
    Meets (buildVariable g k.node value name readOnly) env s (fun _ => True) fun code s' =>
      s.Accounts p k t []
        { s' with visits := visitAt env s k.node (some code) :: s'.visits } := by
  have key : ∀ s', (Law.accounts p k t t k.scope).inv env s' → keyAt env s' k.node = k := by
    rintro s' ⟨placed, he, -⟩
    rw [placed.keyAt, he, ← ht]
  have own := key s hs
  unfold buildVariable
  rw [meets_bind]
  refine meets_boundName? (fun b hb => (hs.2.2.bound b (own ▸ hb)).1) (fun b hb hfinds => ?_)
    fun hmissed => ?_
  · exact accounts_found own hb hfinds hs.2.2
  · show Meets (prepareVariable g k.node value name >>= _) env s _ _
    rw [meets_bind]
    have prepare := Yields.prepareVariable hL.toStraight (typeOf_accounts k.node) hv name s hs
    refine prepare.imp fun v s' ⟨hr, _⟩ => ?_
    rw [meets_bind]
    refine meets_declareVariable fun m => ?_
    rw [meets_pure]
    have own' := key s' (Law.mono _ hs hr)
    exact accounts_declaring own own' hs.2.1 hmissed hs.2.2 (accounts_rel.1 hr)

/-! ### Other nodes -/

/-- The declaration of another variable. -/
theorem declareVariable_accounts (hk : (⟨o, id, some e⟩ : CacheKey) ≠ k) {x : String}
    {type : ValueType} {init : Expr} :
    (Law.accounts p k t e o).Keeps env (declareVariable id value readOnly x type init) := by
  rintro s ⟨placed, rfl, -⟩
  rw [← placed.keyAt] at hk
  refine meets_declareVariable fun m => accounts_rel.2 ?_
  let st : Statement := .declare x type (some init) m (some (keyAt env s id))
  have none : st.declared k = [] := by
    rw [Statement.declared, if_neg fun h => hk (Option.some.inj h)]
  have added : s.Accounts p k t []
      { s with stages := s.stages.modify env.stage fun b => b.add st } := by
    refine .add ?_
    rw [none, ite_self]
    exact .refl s
  refine added.trans (.of_same (.of_eq rfl rfl rfl) rfl ?_ (fun _ => rfl) fun _ => rfl)
  exact NodeCache.bound?_bind.trans (if_neg fun h => hk h.symm)

/-- The steps of a generator keep the accounts. -/
structure Accounted (p : Plan) (k : CacheKey) (t : Stage) (g : Generator) : Prop where
  emit : ∀ {e o env id}, (Law.accounts p k t e o).Keeps env (g.emit id)
  place : ∀ {e o env id}, (Law.accounts p k t e o).Keeps env (g.place id)

theorem Accounted.serves (hg : Accounted p k t g) : (Law.accounts p k t e o).Serves env g id :=
  ⟨fun _ _ _ => hg.emit, fun _ => .ofKeeps hg.place fun _ => trivial, fun _ m _ => typeOf_accounts m⟩

theorem inStage_accounts {step : Build Unit} {u : Stage}
    (h : (Law.accounts p k t u o).Keeps (within env u) step) :
    (Law.accounts p k t e o).Keeps env (inStage u step) := by
  refine h.inStage ?_ (fun s s' hr => accounts_rel.2 (accounts_rel.1 hr)) fun _ he => he
  rintro s ⟨placed, -, ledger⟩
  exact ⟨placed.within u, stage_within env u, ledger⟩

/-- A step for another node leaves the accounts as they are. -/
theorem generateNode_other {x : NodeId} {y : Option String} {z : Bool}
    (hk : p.node k.node = .ok (.var x y z)) (hg : Accounted p k t g) (hn : p.node id = .ok n)
    (other : (⟨o, id, some e⟩ : CacheKey) ≠ k) :
    (Law.accounts p k t e o).Keeps env (generateNode g id n) := by
  have hL : ∀ {e o}, (Law.accounts p k t e o).Closed := accounts_closed hk
  by_cases hspecial : n.isSpecial
  · cases n with
    | varying source name interpolation sampling =>
      have own : ∀ v e', (Law.accounts p k t .vertex o).Keeps (within env .vertex)
          (addStatement (.assign (.reference (.varying .vertex v)) e')) :=
        fun _ _ => .add hL.toStraight (.assign trivial) rfl
      refine .map _ (.buildVarying (.assignVarying own (accounts_unmoved.tabular.mark id) hg.serves)
        (accounts_unmoved.tabular.mark id) inStage_accounts
        (fun _ _ h => h) (fun _ _ _ _ h => h) (fun s hs => ?_) fun v s hs hv => ?_)
      · refine (registerVarying_still hn hs.1.regular.varyings).imp fun v s' hr => ?_
        exact ⟨accounts_rel.2 (.of_entering hr.1), hr.2⟩
      · have locate : (Law.enteringVarying p).Keeps env (locateVarying id v) :=
          locateVarying_entering (hv ▸ hn)
        exact (locate s trivial).imp fun _ _ hr => accounts_rel.2 (.of_entering hr)
    | var value name readOnly =>
      refine .map _ (.buildVariable hL.toStraight (typeOf_accounts id) hg.serves fun name type init _ => ?_)
      exact declareVariable_accounts other
    | context inner values =>
      rintro s ⟨placed, he, ledger⟩
      show Meets (inContext id values (g.emit inner)) env s _ _
      rw [meets_inContext]
      have grown : s.Accounts p k t []
          { s with frames := (s.frames.extend (Frame.current env.frames) id).2 } :=
        .of_quiet (.frames _) (.frames _)
      have placed' := (placed.mono grown.advances).inside
        (s.frames.extend (Frame.current env.frames) id).1 values
      refine (hg.emit _ ⟨placed', he, grown.ledger ledger⟩).imp ?_
      exact fun _ _ hr => Law.trans _ (accounts_rel.2 grown) hr
    | contextValue key fallback =>
      rintro s ⟨placed, he, ledger⟩
      show Meets (withContextValue key fallback g.emit) env s _ _
      rw [meets_withContextValue]
      split
      · next c outer _ => exact hg.emit s ⟨placed.frames outer, he, ledger⟩
      · exact hg.emit s ⟨placed, he, ledger⟩
      · trivial
    | cache inner shares =>
      rintro s ⟨placed, he, ledger⟩
      unfold generateNode
      rw [meets_bind, meets_cacheScope, meets_inScope]
      obtain ⟨advances, placed'⟩ := placed.cacheScope hn rfl
      have grown : s.Accounts p k t []
          { s with cache := (s.cache.scopeFor env.scope id shares).2 } :=
        .of_quiet advances .scopeFor
      refine (hg.emit _ ⟨placed', he, grown.ledger ledger⟩).imp fun _ s' hr => ?_
      exact accounts_rel.2 (grown.trans (accounts_rel.1 hr))
    | _ => cases hspecial
  · have hspecial : n.isSpecial = false := by simpa using hspecial
    intro s hs
    obtain rfl := hs.1.plan
    exact Keeps.generateNode hL hn hspecial (typeOf_accounts id) (fun _ _ => hg.serves) s hs

/-- A step for a node and the visit after it keep the accounts. -/
theorem generateNode_accounts {x : NodeId} {y : Option String} {z : Bool}
    (hk : p.node k.node = .ok (.var x y z)) (ht : k.stage = some t) (hg : Accounted p k t g)
    (hn : p.node id = .ok n) (hs : (Law.accounts p k t e o).inv env s) :
    Meets (generateNode g id n) env s (fun _ => True) fun code s' =>
      s.Accounts p k t [] { s' with visits := visitAt env s id code :: s'.visits } := by
  -- only the step at the variable itself declares names for its key
  by_cases own : (⟨o, id, some e⟩ : CacheKey) = k
  · subst own
    cases ht
    cases hk.symm.trans hn
    unfold generateNode
    rw [meets_map]
    exact buildVariable_accounts (k := ⟨o, id, some t⟩) (accounts_closed hk) rfl hg.serves hs
  · refine (generateNode_other hk hg hn own s hs).imp fun code s' hr => ?_
    obtain ⟨placed, rfl, -⟩ := hs
    have other : (visitAt env s id code).key ≠ k := fun hv => own (placed.keyAt.symm.trans hv)
    exact (accounts_rel.1 hr).log (Visit.declared?_of_ne other) fun _ hv => absurd hv other

/-- Generation keeps the accounts. -/
theorem generator_accounts {x : NodeId} {y : Option String} {z : Bool}
    (hk : p.node k.node = .ok (.var x y z)) (ht : k.stage = some t) (fuel : Nat) :
    Accounted p k t (generator fuel) := by
  induction fuel with
  | zero => exact ⟨fun _ _ => trivial, fun _ _ => trivial⟩
  | succ fuel ih =>
    refine ⟨fun {e o env id} s hs => ?_, fun {e o env id} s hs => ?_⟩
    · obtain rfl := hs.1.plan
      refine meets_emitNode (fun _ => trivial) fun m n _ hn => ?_
      exact (generateNode_accounts hk ht ih hn hs).imp fun code s' hr => accounts_rel.2 hr
    · obtain rfl := hs.1.plan
      refine Keeps.resolve (fun m hm => .located (.node fun n hn => ?_)) s hs
      refine .bind (typeOf_accounts m) fun type => .bind ?_ fun e => .pure _
      exact .placeOf (accounts_closed hk).toPlain ih.emit fun c _ => ih.serves

end Build

/-! ## One variable for each variable node -/

/-! ### Visits that declare -/

namespace Visit

variable {k : CacheKey} {v : Visit} {l : List Visit}

/-- Every visit of a variable gives a name that was declared. -/
theorem Told.declared_of_mem (h : Told k l) (hv : v ∈ l) (hk : v.key = k) :
    ∃ x ∈ l.filterMap (declared? k), v.code = some (Build.localName x) := by
  induction l with
  | nil => cases hv
  | cons w older ih =>
    obtain ⟨answers, told⟩ := h
    rcases List.mem_cons.1 hv with rfl | hv
    · cases hf : v.finds with
      | true =>
        obtain ⟨b, hb, hcode⟩ := (answers hk).found hf
        obtain ⟨u, hu, hd⟩ := (answers hk).bound b hb
        exact ⟨b.name, List.mem_filterMap.2 ⟨u, .tail _ hu, hd⟩, hcode⟩
      | false =>
        obtain ⟨x, hcode⟩ := (answers hk).missed hf
        exact ⟨x, List.mem_filterMap.2 ⟨v, .head _, declared?_of_missed hk hf hcode⟩, hcode⟩
    · obtain ⟨x, hx, hcode⟩ := ih told hv
      obtain ⟨u, hu, hd⟩ := List.mem_filterMap.1 hx
      exact ⟨x, List.mem_filterMap.2 ⟨u, .tail _ hu, hd⟩, hcode⟩

/-- At most one name is declared exactly when all visits but the first find it. -/
theorem Told.length_declared_le_one (h : Told k l) :
    (l.filterMap (declared? k)).length ≤ 1 ↔
      ∀ v ∈ (l.filter fun v => v.key = k).dropLast, v.finds = true := by
  induction l with
  | nil => exact iff_of_true (Nat.zero_le 1) fun v hv => nomatch hv
  | cons w older ih =>
    obtain ⟨answers, told⟩ := h
    by_cases hk : w.key = k
    · have keep : (w :: older).filter (fun v => v.key = k) = w :: older.filter fun v => v.key = k :=
        List.filter_cons_of_pos (decide_eq_true hk)
      rw [keep]
      -- the first visit of the key declares a name, any other only if it finds none
      cases ho : older.filter (fun v => v.key = k) with
      | nil =>
        have none : older.filterMap (declared? k) = [] := by
          refine List.filterMap_eq_nil_iff.2 fun u hu => if_neg fun hd => ?_
          exact List.filter_eq_nil_iff.1 ho u hu (decide_eq_true hd.1)
        refine iff_of_true ?_ fun v hv => nomatch hv
        rw [List.filterMap_cons, none]
        split <;> simp
      | cons u us =>
        have mem : u ∈ older.filter (fun v => v.key = k) := ho ▸ .head _
        obtain ⟨hu, hkey⟩ := List.mem_filter.1 mem
        obtain ⟨x, hx, -⟩ := told.declared_of_mem hu (of_decide_eq_true hkey)
        have pos := List.length_pos_of_mem hx
        rw [List.dropLast_cons_cons, List.forall_mem_cons, ← ho, ← ih told]
        cases hf : w.finds with
        | true =>
          rw [List.filterMap_cons_none (declared?_of_finds hf), and_iff_right rfl]
        | false =>
          obtain ⟨y, hcode⟩ := (answers hk).missed hf
          rw [List.filterMap_cons_some (declared?_of_missed hk hf hcode), List.length_cons]
          refine iff_of_false (by omega) fun hand => nomatch hand.1
    · rw [List.filterMap_cons_none (declared?_of_ne hk), List.filter_cons_of_neg (by simpa using hk),
        ih told]

end Visit

/-! ### Runs -/

/-- What generation of a stage keeps to, seen from outside of it. -/
def Law.balances (p : Plan) (k : CacheKey) (t : Stage) : Law where
  inv env s := Placed p .root env s ∧ s.Ledger k
  rel _ s s' := s.Accounts p k t [] s'
  ends _ := True
  refl := .refl
  trans h h' := h.trans h'
  mono hi hr := ⟨hi.1.mono hr.advances, hr.ledger hi.2⟩
  loops _ hi := ⟨hi.1.of_scope rfl rfl, hi.2⟩
  ordinary _ := trivial
  located _ := trivial

/-- The body of a stage declares one name at most for a key, and whoever reads the variable or
assigns to it uses a name that the body declares. -/
structure BuildState.OneVariable (s : BuildState) (t : Stage) (k : CacheKey) : Prop where
  single : (Statement.declaredIn k (s.stages.get t).outer.statements).length ≤ 1
  used : ∀ v ∈ s.visits, v.key = k →
    ∃ x ∈ Statement.declaredIn k (s.stages.get t).outer.statements,
      v.code = some (Build.localName x)

namespace Build

open Law

variable {p : Plan} {rs : List (Stage × NodeId)} {s s' : BuildState} {k : CacheKey} {t : Stage}
  {value : NodeId} {name : Option String} {readOnly : Bool}

theorem generate_accounts (hk : p.node k.node = .ok (.var value name readOnly))
    (ht : k.stage = some t) (active : List Stage) (hs : s.Scoped p) (hl : s.Ledger k)
    (h : atRoots p active generateStage rs s = .ok s') : s.Accounts p k t [] s' := by
  have walk : ∀ r ∈ rs, (Law.balances p k t).Keeps (Env.root p active r.1)
      (generateStage r.2) := by
    rintro r - s ⟨placed, ledger⟩
    have accounted := generator_accounts hk ht (Nat.pow 2 (p.graph.size + 2))
    have keeps : (Law.accounts p k t r.1 .root).Keeps (Env.root p active r.1)
        (generateStage r.2) := .generateStage accounts_unmoved.tabular.finish accounted.serves
    exact (keeps s ⟨placed, rfl, ledger⟩).imp fun _ s' hr => accounts_rel.1 hr
  have start : ∀ r ∈ rs, (Law.balances p k t).inv (Env.root p active r.1) s :=
    fun r _ => ⟨.root hs active r.1, hl⟩
  have all := Law.Keeps.atRoots start walk
  rw [h] at all
  exact all

/-- After a run the body of a stage declares the names that the visits of a variable declared. -/
theorem declared_of_run (h : run p rs = .ok s)
    (hk : p.node k.node = .ok (.var value name readOnly)) (ht : k.stage = some t) :
    (Statement.declaredIn k (s.stages.get t).outer.statements).Perm (s.missed k) ∧
      Visit.Told k s.visits := by
  obtain ⟨s₀, hanalyze, hgenerate⟩ := of_run h
  obtain ⟨regular, quiet, -⟩ := analyze_covers _ hanalyze
  have ledger : s₀.Ledger k := by
    refine ⟨fun b hb => ?_, ?_⟩
    · rw [quiet.bound k] at hb
      cases hb
    · rw [quiet.visits]
      trivial
  have accounts := generate_accounts hk ht _ regular ledger hgenerate
  have start : ∀ t, (BuildState.start p).stages.get t = .start := fun t => by cases t <;> rfl
  -- all blocks that were opened are closed, so the body is all there is
  have inner : (s.stages.get t).inner = [] := by
    have blocks := accounts.blocks t
    unfold StageBuild.openBlocks at blocks
    rw [quiet.inner t, quiet.outer t, start t] at blocks
    have length := congrArg List.length blocks
    rw [List.length_append, List.length_map] at length
    exact List.length_eq_zero_iff.1 (Nat.succ.inj length)
  have none : (s₀.stages.get t).declared k = [] := by
    unfold StageBuild.declared
    rw [quiet.inner t, quiet.outer t, start t]
    rfl
  have unvisited : s₀.missed k = [] := by
    unfold BuildState.missed
    rw [quiet.visits]
    rfl
  have body : (s.stages.get t).declared k =
      Statement.declaredIn k (s.stages.get t).outer.statements := by
    unfold StageBuild.declared
    rw [inner]
    rfl
  refine ⟨List.perm_iff_count.2 fun x => ?_, (accounts.ledger ledger).told⟩
  have balance := accounts.balance x
  rw [none, unvisited, body] at balance
  simpa using balance

/-- A variable node has one variable in a scope and a stage exactly when all visits but the first
find its declaration open. -/
theorem oneVariable_iff (h : run p rs = .ok s)
    (hk : p.node k.node = .ok (.var value name readOnly)) (ht : k.stage = some t) :
    s.OneVariable t k ↔ ∀ v ∈ (s.visits.filter fun v => v.key = k).dropLast, v.finds = true := by
  obtain ⟨perm, told⟩ := declared_of_run h hk ht
  unfold BuildState.missed at perm
  rw [← told.length_declared_le_one]
  constructor
  · intro one
    rw [← perm.length_eq]
    exact one.single
  · intro single
    refine ⟨perm.length_eq ▸ single, fun v hv hkey => ?_⟩
    obtain ⟨x, hx, hcode⟩ := told.declared_of_mem hv hkey
    exact ⟨x, perm.mem_iff.2 hx, hcode⟩

/-- Some nodes, a branch that assigns to a variable, and the variable after it. -/
def assigned (before : List NodeId) : Graph := .ofNodes
  [.const .float [0], .var ⟨0⟩ (some "acc") false, .const .bool [1], .assign ⟨1⟩ ⟨0⟩ none,
    .conditional ⟨2⟩ ⟨3⟩ none, .stack (before ++ [⟨4⟩]) (some ⟨1⟩)]

theorem make_assigned :
    Plan.make (assigned []) .standard [⟨5⟩] = .ok (.ofGraph (assigned []) .standard) := by
  rfl

/-- What the fragment stage sees before it is generated. -/
def fragmentOf (g : Graph) : Env := .root (.ofGraph g .standard) [.fragment] .fragment

/-- Whether what a run leaves behind passes a check. -/
def leaves (check : BuildState → Bool) : Except Failure BuildState → Bool
  | .ok s => check s
  | .error _ => false

theorem of_leaves {check : BuildState → Bool} {r : Except Failure BuildState}
    (h : leaves check r = true) : ∃ s, r = .ok s ∧ check s = true := by
  unfold leaves at h
  split at h
  · exact ⟨_, rfl, h⟩
  · cases h

/-- A variable that is met in a branch first is declared again after the branch. -/
theorem assigned_declared_twice :
    (build (assigned []) ⟨none, some ⟨5⟩, none⟩ .standard).isOk = true ∧
      ∃ p, Plan.make (assigned []) .standard [⟨5⟩] = .ok p ∧
        ∃ s, run p [(.fragment, ⟨5⟩)] = .ok s ∧
          ¬s.OneVariable .fragment ⟨.root, ⟨1⟩, some .fragment⟩ := by
  have twice : leaves (fun s => Statement.declaredIn ⟨.root, ⟨1⟩, some .fragment⟩
        (s.stages.get .fragment).outer.statements = ["acc", "acc_1"])
      (run (.ofGraph (assigned []) .standard) [(.fragment, ⟨5⟩)]) = true := by
    decide +kernel
  obtain ⟨s, hs, hdeclared⟩ := of_leaves twice
  refine ⟨by decide +kernel, _, make_assigned, s, hs, fun one => ?_⟩
  have single := one.single
  rw [of_decide_eq_true hdeclared] at single
  exact absurd single (by decide)

/-- A variable that is met before the branch is declared once. -/
theorem assigned_oneVariable :
    ∃ s, run (.ofGraph (assigned [⟨1⟩]) .standard) [(.fragment, ⟨5⟩)] = .ok s ∧
      s.OneVariable .fragment ⟨.root, ⟨1⟩, some .fragment⟩ := by
  have finds : leaves (fun s => (s.visits.filter fun v =>
        v.key = ⟨.root, ⟨1⟩, some .fragment⟩).dropLast.all Visit.finds)
      (run (.ofGraph (assigned [⟨1⟩]) .standard) [(.fragment, ⟨5⟩)]) = true := by
    decide +kernel
  obtain ⟨s, hs, hfinds⟩ := of_leaves finds
  exact ⟨s, hs, (oneVariable_iff hs rfl rfl).2 (List.all_eq_true.1 hfinds)⟩

end Build

end ShaderGraph
