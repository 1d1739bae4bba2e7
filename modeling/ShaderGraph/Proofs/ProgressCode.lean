import ShaderGraph.Proofs.Inputs
import ShaderGraph.Proofs.Progress
import ShaderGraph.Proofs.VariablesBuild

/-!
# Well-typed expressions

Types are found before code is generated, and generation brings each operand to a type of its own by
rules of its own. It never gets stuck on what typing let pass: in a graph of expressions without
cycles the code of whatever has a type is generated (`value_of_typeOf`).
-/

namespace ShaderGraph.Build

open Law Plan

variable {p : Plan} {env : Env} {g : Generator} {id m c : NodeId} {n : Node} {t u : ValueType}
  {k : ScalarKind}

/-! ### Steps of single nodes -/

namespace Succeeds

theorem here : Succeeds p env here fun _ => True := fun _ hs => ⟨hs, trivial⟩

theorem modifyHere (f : StageBuild → StageBuild) : Succeeds p env (modifyHere f) fun _ => True :=
  fun _ hs => ⟨hs, trivial⟩

/-- What consists of scalars needs no declaration, and both dialects can write it. -/
theorem useType (hk : t.scalarKind = some k) : Succeeds p env (useType t) fun _ => True := by
  have mark : ∀ fuel, Succeeds p env (markTypeIn (fuel + 1) t) fun _ => True := by
    intro fuel
    cases t with
    | scalar | vector | matrix => exact .pure trivial
    | _ => cases hk
  have writes : ∀ d : Dialect, d.refuses? t = none := by
    intro d
    cases t with
    | scalar k => exact d.refuses?_scalar k
    | vector k w => exact d.refuses?_vector k w
    | matrix w => exact d.refuses?_matrix w
    | _ => cases hk
  refine .bind (P := fun _ => True) (.read (mark _)) fun _ _ s hs => ?_
  rw [meets_bind, meets_dialect, writes]
  exact ⟨hs, trivial⟩

theorem boundName? (id : NodeId) : Succeeds p env (boundName? id) fun _ => True := by
  refine .read (.get fun s _ => ?_)
  split
  · next bound _ =>
    have visible : Succeeds p env (isVisible bound) fun _ => True :=
      .read (.bind here fun _ _ => .pure trivial)
    exact .bind visible fun v _ => .pure trivial
  · exact .pure trivial

theorem declareTemp (hk : t.scalarKind = some k) (init : Option Expr) (mode : Mutability) :
    Succeeds p env (declareTemp t init mode) fun _ => True := by
  have claim : Succeeds p env claimTemp fun _ => True :=
    .read fun _ hs => ⟨hs, trivial⟩
  refine .bind (.useType hk) fun _ _ => .bind claim fun name _ => ?_
  exact .bind (.modifyHere _) fun _ _ => .pure trivial

theorem bindValue (id : NodeId) (name : String) :
    Succeeds p env (bindValue id name) fun _ => True :=
  .read (.read (.bind .here fun _ _ => .ofModify fun _ => rfl))

/-- A value of an expression, which may get a name. -/
theorem buildTemp {step : Build (Option Expr)} (hk : t.scalarKind = some k)
    (type : Succeeds p env (typeOf id) fun u => u = t)
    (h : Succeeds p env step fun e => e.isSome = true) :
    Succeeds p env (buildTemp id step) fun e => e.isSome = true := by
  have usage : Succeeds p env (usage id) fun _ => True := .read (.get fun s _ => .pure trivial)
  refine .bind (.boundName? id) fun bound _ => ?_
  split
  · exact .pure rfl
  refine .bind h fun e he => .bind type fun u _ => ?_
  obtain ⟨e, rfl⟩ := Option.isSome_iff_exists.1 he
  refine .bind usage fun count _ => ?_
  subst u
  split
  · exact .pure rfl
  · exact .bind (.declareTemp hk _ _) fun name _ => .bind (.bindValue id name) fun _ _ => .pure rfl

end Succeeds

/-! ### Values of nodes -/

/-- The code of a node of type `t` is generated, and brought to any type that it can be brought
to. -/
structure Builds (p : Plan) (env : Env) (g : Generator) (id : NodeId) (t : ValueType) : Prop where
  type : Succeeds p env (typeOf id) fun u => u = t
  emit : Succeeds p env (g.emit id) fun e => e.isSome = true
  value : ∀ target, t.Coerces target → Succeeds p env (g.value id target) fun _ => True

/-- The value of an expression, when its code is generated. -/
theorem Succeeds.value (hm : env.plan.resolve id = .ok m) (hk : t.scalarKind = some k)
    (emit : Succeeds p env (g.emit m) fun e => e.isSome = true)
    (type : Succeeds p env (typeOf m) fun u => u = t) {target : ValueType}
    (hc : t.Coerces target) : Succeeds p env (g.value id target) fun _ => True := by
  refine .resolve hm (.located (.bind emit fun e he => .bind type fun u hu => ?_))
  obtain ⟨e, rfl⟩ := Option.isSome_iff_exists.1 he
  subst hu
  obtain ⟨e', he'⟩ := hc e
  refine .whenFalse ?_ ((Succeeds.ofExcept he').imp fun _ _ => trivial)
  rintro rfl
  cases hk

/-- Values of some nodes, each of a type that the node can be brought to. -/
theorem Succeeds.values {type : NodeId → ValueType} {ids : List NodeId} {targets : List ValueType}
    (h : ∀ c ∈ ids, Builds p env g c (type c))
    (hc : List.Forall₂ ValueType.Coerces (ids.map type) targets) :
    Succeeds p env (g.values (ids.zip targets)) fun _ => True := by
  have fits := List.forall₂_iff_zip.1 (List.forall₂_map_left_iff.1 hc)
  have each : ∀ v ∈ ids.zip targets, Succeeds p env (g.value v.1 v.2) fun _ => True :=
    fun v hv => (h v.1 (List.of_mem_zip hv).1).value v.2 (fits.2 hv)
  exact (Succeeds.mapM each).imp fun _ _ => trivial

/-! ### Expressions -/

namespace Builds

variable {type : NodeId → ValueType}

theorem constant {own : ValueType} {values : List Float} (h : constantType own values = .ok t) :
    Succeeds p env (buildConstant own values) fun _ => True := by
  obtain ⟨k, hk⟩ := kinded_of_constantType h
  obtain rfl := constantType_eq h
  refine .bind (Succeeds.ofExcept h).discard fun _ _ => ?_
  split
  · exact .pure trivial
  · exact .bind (.useType hk) fun _ _ => .pure trivial

theorem operator {op : BinaryOp} {left right : NodeId} {a b : ValueType}
    (hl : Builds p env g left a) (hr : Builds p env g right b)
    (h : op.resultType a b = .ok t) :
    Succeeds p env (buildOperator g op left right) fun _ => True := by
  have brought := (BinaryOp.takes_of_resultType h).coerces
  refine .bind hl.type fun u hu => .bind hr.type fun v hv => ?_
  subst hu hv
  refine .bind (Succeeds.ofExcept h) fun r hr' => ?_
  subst hr'
  refine .bind (hl.value _ brought.1) fun l _ => .bind (hr.value _ brought.2) fun r _ => ?_
  split
  · exact .pure trivial
  · exact .pure trivial

theorem unary {op : UnaryOp} {operand : NodeId} {a : ValueType} (ha : Builds p env g operand a)
    (h : op.resultType a = .ok t) :
    Succeeds p env (buildUnary g op operand) fun e => e.isSome = true := by
  refine .bind ha.type fun u hu => ?_
  subst hu
  refine .bind (Succeeds.ofExcept h).discard fun _ _ => .bind ha.emit fun e he => .pure ?_
  rwa [Option.isSome_map]

theorem math {method : MathMethod} {args : List NodeId}
    (own : Succeeds p env (typeOf m) fun u => u = t)
    (h : ∀ c ∈ args, Builds p env g c (type c)) (plain : method.isDerivative = false)
    (ht : method.resultType (args.map type) = .ok t) :
    Succeeds p env (buildMath g m method args) fun _ => True := by
  obtain ⟨targets, htargets, brought⟩ := (MathMethod.fits_of_resultType ht).coerces
  have stage : Succeeds p env stage fun _ => True := fun _ hs => ⟨hs, trivial⟩
  refine .bind stage fun _ _ => .whenFalse (by simp [plain]) ?_
  refine .bind own fun u hu => .bind (.mapM_eq fun c hc => (h c hc).type) fun ts hts => ?_
  subst hu hts
  refine .bind (Succeeds.ofExcept htargets) fun us hus => ?_
  subst hus
  exact .bind (.values h brought) fun es _ => .pure trivial

theorem split {source : NodeId} {components : String} {a : ValueType}
    (ha : Builds p env g source a) (h : Swizzle.resultType a components = .ok t) :
    Succeeds p env (buildSplit g source components) fun e => e.isSome = true := by
  obtain ⟨⟨cs, hcs⟩, -⟩ := Swizzle.of_resultType h
  refine .bind ha.type fun u hu => ?_
  subst hu
  refine .bind (Succeeds.ofExcept h).discard fun _ _ => .bind (Succeeds.ofExcept hcs) fun _ _ => ?_
  refine .bind ha.emit fun e he => .pure ?_
  rwa [Option.isSome_map]

theorem join {parts : List NodeId} (own : Succeeds p env (typeOf m) fun u => u = t)
    (h : ∀ c ∈ parts, Builds p env g c (type c)) (ht : joinType (parts.map type) none = .ok t) :
    Succeeds p env (buildJoin g m parts) fun _ => True := by
  obtain ⟨brought, k, hk⟩ := coerces_of_joinType ht
  refine .bind own fun u hu => ?_
  subst hu
  have part : ∀ c ∈ parts, Succeeds p env (do
      g.value c ((← typeOf c).recast (u.scalarKind.getD .float))) fun _ => True := by
    intro c hc
    refine .bind (h c hc).type fun v hv => (h c hc).value _ ?_
    exact hv ▸ brought (type c) (List.mem_map_of_mem hc)
  exact .bind (.mapM part) fun es _ => .bind (.useType hk) fun _ _ => .pure trivial

/-- Neither an expression nor anything below it adds statements. -/
theorem pure {ids : List NodeId} (h : ∀ c ∈ ids, ∃ u, p.Types c u) (fuel : Nat)
    (seen : List NodeId) : arePureFrom p fuel ids seen = .ok true := by
  induction fuel generalizing ids seen with
  | zero => rfl
  | succ fuel ih =>
    cases ids with
    | nil => rfl
    | cons c rest =>
      have others : ∀ c ∈ rest, ∃ u, p.Types c u := fun c hc => h c (.tail _ hc)
      obtain ⟨u, ⟨type, hm, hn, below, rule⟩⟩ := h c (.head _)
      rw [arePureFrom, hm]
      dsimp only
      split
      · exact ih others _
      · rw [hn]
        dsimp only
        rw [if_neg (by simp [rule.isPure])]
        refine ih (fun c hc => ?_) _
        rcases List.mem_append.1 hc with hc | hc
        · exact ⟨_, below c hc⟩
        · exact others c hc

theorem conditional {condition thenNode elseNode : NodeId} (plan : env.plan = p)
    (own : Succeeds p env (typeOf m) fun u => u = t) (hk : t.scalarKind = some k)
    (hc : Builds p env g condition .bool) (ht : Builds p env g thenNode t)
    (he : Builds p env g elseNode t) (typed : ∀ c ∈ [thenNode, elseNode], ∃ u, p.Types c u) :
    Succeeds p env (buildConditional g m condition thenNode (some elseNode))
      fun e => e.isSome = true := by
  have choice : ∀ c, Succeeds p env (do
      let a ← g.value thenNode t
      let b ← g.value elseNode t
      return some (Expr.select c a b)) fun e => e.isSome = true := fun c =>
    .bind (ht.value _ (.refl t)) fun a _ => .bind (he.value _ (.refl t)) fun b _ => .pure rfl
  have arePure : Succeeds p env (arePure [thenNode, elseNode]) fun b => b = true :=
    .read (plan ▸ .ofExcept (pure (plan ▸ typed) _ _))
  refine .bind (.boundName? m) fun bound _ => ?_
  split
  · exact .pure rfl
  refine .bind own fun u hu => .bind (hc.value _ (.refl _)) fun c _ => ?_
  subst hu
  refine .whenFalse ?_ (.bind arePure fun b hb => .whenTrue hb (.buildTemp hk own (choice c)))
  rintro rfl
  cases hk

/-- The code of a node is generated from that of the nodes below it. -/
theorem generateNode (plan : env.plan = p) (own : Succeeds p env (typeOf m) fun u => u = t)
    (hk : t.scalarKind = some k) (rule : n.Rule type t)
    (h : ∀ c ∈ n.children, Builds p env g c (type c)) (typed : ∀ c ∈ n.children, p.Types c (type c)) :
    Succeeds p env (generateNode g m n) fun e => e.isSome = true := by
  have some : ∀ {step : Build Expr}, Succeeds p env step (fun _ => True) →
      Succeeds p env (Option.some <$> step) fun e => e.isSome = true :=
    fun h => h.map fun _ _ => rfl
  cases n with
  | const own values => exact some (constant rule)
  | operator op left right =>
    exact .buildTemp hk own (some (operator (h left (.head _)) (h right (.tail _ (.head _))) rule))
  | unary op operand => exact .buildTemp hk own (unary (h operand (.head _)) rule)
  | math method args => exact .buildTemp hk own (some (math own h rule.1 rule.2))
  | split source components => exact split (h source (.head _)) rule
  | join parts explicit =>
    cases explicit with
    | some => cases rule
    | none => exact .buildTemp hk own (some (join own h rule))
  | conditional condition thenNode elseNode =>
    cases elseNode with
    | none => cases rule
    | some elseNode =>
      obtain ⟨isBool, thenType, elseType⟩ := rule
      have thenNode := h thenNode (.tail _ (.head _))
      have elseNode := h elseNode (.tail _ (.tail _ (.head _)))
      refine conditional plan own hk (isBool ▸ h condition (.head _)) (thenType ▸ thenNode)
        (elseType ▸ elseNode) fun c hc => ⟨_, typed c (.tail _ hc)⟩
  | _ => cases rule

end Builds

/-! ### The recursion -/

/-- In a graph without cycles the code of whatever has a type is generated. -/
theorem generator_progress (hp : p.Acyclic) (plan : env.plan = p) (idle : env.typing = [])
    (h : p.Types id t) {fuel : Nat} (deep : ∀ m, p.resolve id = .ok m → p.rank m ≤ fuel) :
    Builds p env (generator fuel) id t := by
  induction h generalizing fuel with
  | @of id m n t type hm hn below rule ih =>
    have some : 0 < fuel := (rank_pos hn).trans_le (deep m hm)
    obtain ⟨fuel, rfl⟩ := Nat.exists_eq_succ_of_ne_zero (Nat.ne_of_gt some)
    have typed : p.Types id t := .of type hm hn below rule
    obtain ⟨k, hk⟩ := typed.kinded
    have own := typeOf_progress hp plan idle ((Types.iff_of_resolve hm).1 typed)
    have children : ∀ c ∈ n.children, Builds p env (generator fuel) c (type c) := by
      refine fun c hc => ih c hc fun m' hm' => ?_
      have := hp.rank_lt ⟨n, c, hn, hc, hm'⟩
      have := deep m hm
      omega
    have code : Succeeds p env (generateNode (generator fuel) m n) fun e => e.isSome = true :=
      Builds.generateNode plan own hk rule children below
    have emit : ∀ {c}, p.resolve c = .ok m →
        Succeeds p env ((generator (fuel + 1)).emit c) fun e => e.isSome = true := by
      intro c hc
      refine .resolve (plan ▸ hc) (.get fun s _ => ?_)
      refine .bind (.located (.node (plan ▸ hn) code)) fun e he => ?_
      refine .bind (P := fun _ => True) (.read (.ofModify fun _ => rfl)) fun _ _ => .pure he
    refine ⟨typeOf_progress hp plan idle typed, emit hm, fun target hc => ?_⟩
    exact .value (plan ▸ hm) hk (emit (resolve_of_resolve hm)) own hc

/-! ### Types throughout a run -/

theorem typed_tabular : (Law.typed p).Tabular True where
  exhausted _ := trivial
  founded _ := absurd trivial
  rel _ hcore hs := hs.of_types (congrArg Core.types hcore)

theorem typed_blockless : (Law.typed p).Blockless where
  stages _ _ _ hs := hs
  any h := h

theorem typed_closed : (Law.typed p).Closed := by
  have mark : ∀ {env} t, (Law.typed p).Keeps env (markType t) := fun t =>
    typed_tabular.keeps fun _ => markType_tables (absurd trivial)
  have register : ∀ env f, (Law.typed p).Keeps env (registerFunction f) := fun env f =>
    .bind (.read (.pure _)) fun fuel =>
      .registerFunctionIn (L := Law.typed p) trivial (fun _ _ _ hs => hs) (fun _ _ _ hs => hs)
        (fun _ _ _ _ hs => hs) fuel [] f
  refine typed_tabular.closed register ?_ ?_ (fun _ _ => typed_blockless.add) typed_blockless.inBlock
  · exact fun env f => .bind (.read (.pure _)) fun fuel =>
      .useFunctionIn trivial mark (register env) (fun _ _ _ hs => hs) fuel f
  · exact fun _ _ _ _ _ _ => .read (.read (.bind .here fun _ _ _ hs => hs))

/-- What is below a node keeps to the types of expressions when generation does. -/
theorem typed_serves (he : p.OfExpressions) (hg : (Law.typed p).Runs g) :
    (Law.typed p).Serves env g c :=
  ⟨fun _ _ _ => hg.emit, fun _ => hg.place, fun _ m _ => (typeOf_types he m).keeps⟩

/-- An expression node is no variable, varying, context or cache. -/
theorem isSpecial_of_isExpression (h : n.isExpression = true) : n.isSpecial = false := by
  cases n <;> first | rfl | cases h

/-- Generation finds only types of expressions. -/
theorem generator_typed (he : p.OfExpressions) (fuel : Nat) :
    (Law.typed p).Runs (generator fuel) := by
  induction fuel with
  | zero => exact ⟨fun _ _ => trivial, fun _ _ => trivial⟩
  | succ fuel ih =>
    refine ⟨fun {env id} => ?_, fun {env id} => .ofKeeps ?_ fun _ => trivial⟩
    · rintro s ⟨rfl, hs⟩
      refine Keeps.resolve (fun m _ => .get fun before => ?_) s ⟨rfl, hs⟩
      refine .bind (.located (.node fun n hn => ?_)) fun code => ?_
      · exact .generateNode typed_closed hn (isSpecial_of_isExpression (he m n hn))
          (typeOf_types he m).keeps fun _ _ => typed_serves he ih
      · exact .bind (.read fun s _ hs => hs) fun _ => .pure _
    · refine .resolve fun m _ => .located (.node fun n _ => ?_)
      refine .bind (typeOf_types he m).keeps fun type => ?_
      exact .bind (.placeOf typed_closed.toPlain ih.emit fun _ _ => typed_serves he ih) fun _ => .pure _

/-- Analysis finds only types of expressions. -/
theorem analyzeIn_typed (he : p.OfExpressions) (fuel : Nat) :
    (Law.typed p).Keeps env (analyzeIn fuel id) := by
  induction fuel generalizing env id with
  | zero => exact fun _ _ => trivial
  | succ fuel ih =>
    rintro s ⟨rfl, hs⟩
    refine meets_analyzeIn (L := Law.typed env.plan) (fun _ _ _ => trivial)
      (fun _ _ _ _ hs => hs) fun m n _ _ _ hn => ?_
    have walk : (Law.typed env.plan).Keeps { env with path := m :: env.path }
        (n.children.forM (analyzeIn fuel)) := .forM fun c _ => ih
    have node : (Law.typed env.plan).Keeps { env with path := m :: env.path }
        (analyzeNode (analyzeIn fuel) m n) := by
      have he := he m n hn
      cases n <;> first | exact walk | cases he
    exact node (s.counting env m) ⟨rfl, hs⟩

/-- A run finds only types of expressions. -/
theorem typed_of_runs (he : p.OfExpressions) {active : List Stage}
    {analyzed generated : List (Stage × NodeId)} {s s' : BuildState}
    (ha : atRoots p active analyze analyzed (BuildState.start p) = .ok s)
    (hg : atRoots p active generateStage generated s = .ok s') : s'.Typed p := by
  have start : (BuildState.start p).Typed p := fun _ _ _ hg => nomatch hg
  have survey : ∀ r ∈ analyzed, (Law.typed p).Keeps (Env.root p active r.1) (analyze r.2) :=
    fun r _ => .read (analyzeIn_typed he _)
  have generate : ∀ r ∈ generated,
      (Law.typed p).Keeps (Env.root p active r.1) (generateStage r.2) := fun r _ =>
    .generateStage typed_tabular.finish (typed_serves he (generator_typed he _))
  have surveyed : s.Typed p := by
    have all := Law.Keeps.atRoots (L := Law.typed p) (fun _ _ => ⟨rfl, start⟩) survey
    rw [ha] at all
    exact all start
  have all := Law.Keeps.atRoots (L := Law.typed p) (fun _ _ => ⟨rfl, surveyed⟩) generate
  rw [hg] at all
  exact all surveyed

/-- Well-typed expressions never get stuck. In a graph of expressions without cycles, after any
stages were analysed and generated: when the type of a node is found, a value of this type is
generated for the node, in any stage and either dialect. -/
theorem value_of_typeOf (hp : p.Acyclic) (he : p.OfExpressions) {active : List Stage}
    {analyzed generated : List (Stage × NodeId)} {s₀ s s' : BuildState}
    (ha : atRoots p active analyze analyzed (BuildState.start p) = .ok s₀)
    (hg : atRoots p active generateStage generated s₀ = .ok s)
    (plan : env.plan = p) (idle : env.typing = []) (ht : typeOf id env s = .ok (t, s')) :
    ∃ e s'', (do (generator (← depthBound)).value id t) env s' = .ok (e, s'') := by
  have hs : s.Typed p := typed_of_runs he ha hg
  obtain ⟨hs', typed⟩ := (typeOf_types he id s ⟨plan, hs⟩).post ht
  have build : Succeeds p env (do (generator (← depthBound)).value id t) fun _ => True := by
    subst plan
    refine .read ((generator_progress hp rfl idle typed fun m _ => ?_).value t (.refl t))
    exact rank_le_depth _ m
  have done := build s' (hs' hs)
  unfold Meets at done
  split at done
  · next e s'' hr => exact ⟨e, s'', hr⟩
  · cases done

/-- Numbers of three kinds, put together and shared in many ways. -/
def mixed : Graph := .ofNodes [
  .const .vec3 [1, 2, 3], .const .float [2], .const .int [3],
  .operator .mul ⟨0⟩ ⟨1⟩, .operator .add ⟨3⟩ ⟨2⟩, .math .min [⟨4⟩, ⟨1⟩],
  .split ⟨5⟩ "xy", .join [⟨6⟩, ⟨2⟩, ⟨1⟩] none, .operator .lt ⟨1⟩ ⟨2⟩,
  .unary .neg ⟨7⟩, .conditional ⟨8⟩ ⟨7⟩ (some ⟨9⟩)]

/-- Operands of three kinds are brought to vectors of floats. -/
theorem mixed_value : ∃ s₀ s s', atRoots (.ofGraph mixed .standard) [.fragment] analyze
        [(.fragment, ⟨10⟩)] (BuildState.start (.ofGraph mixed .standard)) = .ok s₀ ∧
      atRoots (.ofGraph mixed .standard) [.fragment] generateStage [(.fragment, ⟨10⟩)] s₀ = .ok s ∧
      typeOf ⟨10⟩ (.root (.ofGraph mixed .standard) [.fragment] .fragment) s = .ok (.vec4, s') ∧
      ∃ e s'', (do (generator (← depthBound)).value ⟨10⟩ .vec4)
        (.root (.ofGraph mixed .standard) [.fragment] .fragment) s' = .ok (e, s'') := by
  have founded : (Plan.ofGraph mixed .standard).Acyclic := acyclic_of_refersBack (by decide +kernel)
  have expressions : (Plan.ofGraph mixed .standard).OfExpressions := by
    have all : (mixed.entries.toList.map Entry.node).all (·.isExpression) = true := by
      decide +kernel
    exact fun _ n hn => List.all_eq_true.1 all n (mem_of_node hn)
  have found : leaves (fun s => ((typeOf ⟨10⟩ (.root (.ofGraph mixed .standard) [.fragment] .fragment)
      s).toOption.map Prod.fst) = some .vec4)
      (run (.ofGraph mixed .standard) [(.fragment, ⟨10⟩)]) = true := by
    decide +kernel
  obtain ⟨s, hs, found⟩ := of_leaves found
  obtain ⟨s₀, ha, hg⟩ := of_run hs
  have found := of_decide_eq_true found
  cases typed : typeOf ⟨10⟩ (.root (.ofGraph mixed .standard) [.fragment] .fragment) s with
  | error f =>
    rw [typed] at found
    cases found
  | ok r =>
    rw [typed] at found
    obtain ⟨t, s'⟩ := r
    cases found
    exact ⟨s₀, s, s', ha, hg, typed, value_of_typeOf founded expressions ha hg rfl rfl typed⟩

end ShaderGraph.Build
