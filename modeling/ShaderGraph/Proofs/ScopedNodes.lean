import ShaderGraph.Proofs.ScopedCode

/-!
# Nodes whose code is in scope

The steps of single nodes compose code that is in scope, when the steps for the nodes below do
(`Generator.Scopes`).
-/

namespace ShaderGraph

open Build BuildState

/-- What a generator makes of nodes refers to what is in scope. -/
structure Generator.Scopes (g : Generator) : Prop where
  emit : ∀ {env} id, Composes env [] (g.emit id) Option.toList
  place : ∀ {env} id, Composes env [] (g.place id) fun r => [r.1]

/-- Both sides of an assignment. -/
def Statement.sides : Statement → List Expr
  | assign place value | update place _ value => [place, value]
  | _ => []

namespace Build

variable {env : Env} {given : List Expr} {g : Generator} {id : NodeId}

/-- One expression that follows. -/
theorem follows_one {e : Expr} (h : ∀ known scope, (∀ x ∈ given, x.Refers known scope) →
    e.Refers known scope) : Follows given [e] :=
  fun known scope _ hg _ he => List.mem_singleton.1 he ▸ h known scope hg

/-- What a step makes of a single expression. -/
theorem follows_map {e : Option Expr} {f : Expr → Expr} (h : ∀ e known scope,
    e.Refers known scope → (f e).Refers known scope) : Follows (e.toList ++ given)
      (e.map f).toList := by
  cases e with
  | none => exact follows_nil
  | some e => exact follows_one fun known scope hg => h e known scope (hg e (.head _))

/-- What is given first. -/
theorem follows_head {e : Expr} : Follows (e :: given) [e] :=
  .of_subset (List.cons_subset_cons e (List.nil_subset _))

namespace Composes

variable (hg : g.Scopes)

include hg

theorem emit (id : NodeId) : Composes env given (g.emit id) Option.toList :=
  (hg.emit id).mono (List.nil_subset _)

theorem place (id : NodeId) : Composes env given (g.place id) fun r => [r.1] :=
  (hg.place id).mono (List.nil_subset _)

theorem statement (id : NodeId) : Composes env given (g.statement id) fun _ => [] :=
  .discard (.emit hg id)

theorem value (id : NodeId) (target : ValueType) :
    Composes env given (g.value id target) fun e => [e] := by
  refine .resolve fun m _ => .located
    (.bind (.emit hg m) fun e => .fill (typeOf_fills m) fun type => ?_)
  cases e with
  | none => exact .fail
  | some e =>
    refine .check (.ofExcept fun e' he => follows_one fun known scope h => ?_)
    exact (h e (.head _)).coerce he

theorem values (ids : List (NodeId × ValueType)) : Composes env given (g.values ids) fun es => es :=
  .mapM fun v _ => .value hg v.1 v.2

end Composes

/-! ### Expressions -/

theorem constant_composes (type : ValueType) (values : List Float) :
    Composes env given (buildConstant type values) fun e => [e] := by
  have literals : ∀ known scope, ∀ x ∈ (constantComponents type values).map
      (Expr.literal (type.scalarKind.getD .float)), x.Refers known scope := by
    intro known scope x hx
    obtain ⟨v, -, rfl⟩ := List.mem_map.1 hx
    exact Expr.refers_literal _ _
  refine .look (.discard (.constantType type values)) fun _ => .ite (fun _ => .pure ?_) fun _ => ?_
  · refine follows_one fun known scope _ => ?_
    cases h : (constantComponents type values).map (Expr.literal (type.scalarKind.getD .float)) with
    | nil => exact Expr.refers_literal _ _
    | cons x rest => exact literals known scope x (h ▸ .head _)
  · refine .fill (useType_fills type) fun _ => .pure (follows_one fun known scope _ => ?_)
    exact Expr.refers_construct.2 (literals known scope)

section

variable (hg : g.Scopes)

include hg

theorem texture_composes (name : String) (uv : NodeId) (level : Option NodeId) :
    Composes env given (buildTexture g name uv level) fun e => [e] := by
  have level : ∀ {given}, Composes env given (buildLevel g level) Option.toList := by
    intro given
    cases level with
    | some level => exact .map _ (.value hg level .float)
    | none =>
      refine .look .stage fun t => .pure ?_
      split
      · exact follows_nil
      · exact follows_one fun _ _ _ => Expr.refers_literal _ _
  refine .bind (.value hg uv .vec2) fun uv => .bind level fun level => ?_
  refine .fill (useTexture_fills name) fun t => .pure (follows_one fun known scope h => ?_)
  refine Expr.refers_sample.2 ⟨h uv (List.mem_append_right _ (.head _)), fun x hx => ?_⟩
  exact h x (List.mem_append_left _ (Option.mem_toList.2 hx))

theorem operator_composes (op : BinaryOp) (left right : NodeId) :
    Composes env given (buildOperator g op left right) fun e => [e] := by
  refine .fill (typeOf_fills left) fun l => .fill (typeOf_fills right) fun r =>
    .rule fun result => ?_
  refine .bind (.value hg left _) fun left => .bind (.value hg right _) fun right => ?_
  have both : ∀ known scope, (∀ x ∈ [right] ++ ([left] ++ given), x.Refers known scope) →
      left.Refers known scope ∧ right.Refers known scope :=
    fun _ _ h => ⟨h left (.tail _ (.head _)), h right (.head _)⟩
  refine .ite (fun _ => .pure ?_) fun _ => .pure ?_
  · exact follows_one fun known scope h => Expr.refers_remainder.2 (both known scope h)
  · exact follows_one fun known scope h => Expr.refers_operator.2 (both known scope h)

theorem unary_composes (op : UnaryOp) (operand : NodeId) :
    Composes env given (buildUnary g op operand) Option.toList := by
  refine .fill (typeOf_fills operand) fun type =>
    .look (.discard (.ofExcept fun _ _ => rfl)) fun _ => ?_
  exact .bind (.emit hg operand) fun e => .pure (follows_map fun _ _ _ h => Expr.refers_unary.2 h)

theorem math_composes (id : NodeId) (m : MathMethod) (args : List NodeId) :
    Composes env given (buildMath g id m args) fun e => [e] := by
  refine .look .stage fun t => .check (.fill (typeOf_fills id) fun result => ?_)
  refine .fill (.mapM fun c _ => typeOf_fills c) fun types => .rule fun targets => ?_
  refine .bind (.values hg _) fun es => .pure (follows_one fun known scope h => ?_)
  exact Expr.refers_math.2 fun x hx => h x (List.mem_append_left _ hx)

theorem split_composes (source : NodeId) (components : String) :
    Composes env given (buildSplit g source components) Option.toList := by
  refine .fill (typeOf_fills source) fun type =>
    .look (.discard (.ofExcept fun _ _ => rfl)) fun _ => ?_
  refine .rule fun cs => .bind (.emit hg source) fun e => .pure ?_
  exact follows_map fun _ _ _ h => Expr.refers_swizzle.2 h

theorem join_composes (id : NodeId) (parts : List NodeId) :
    Composes env given (buildJoin g id parts) fun e => [e] := by
  refine .fill (typeOf_fills id) fun type => .bind (.mapM fun part _ => ?_) fun es => ?_
  · exact .fill (typeOf_fills part) fun t => .value hg part _
  · refine .fill (useType_fills type) fun _ => .pure (follows_one fun known scope h => ?_)
    exact Expr.refers_construct.2 fun x hx => h x (List.mem_append_left _ hx)

theorem convert_composes (source : NodeId) (target : ValueType) :
    Composes env given (buildConvert g source target) Option.toList := by
  refine .fill (typeOf_fills source) fun type => .bind (.emit hg source) fun e => ?_
  cases e with
  | some e =>
    refine .map some (.ofExcept fun e' he => follows_one fun known scope h => ?_)
    exact (h e (.head _)).convert he
  | none => exact .check (.pure follows_nil)

theorem struct_composes (id : NodeId) (values : List NodeId) :
    Composes env given (buildStruct g id values) fun e => [e] := by
  refine .fill (typeOf_fills id) fun type => .structMembers fun members => .check ?_
  refine .bind (.values hg _) fun es => ?_
  refine .fill (useType_fills type) fun _ => .pure (follows_one fun known scope h => ?_)
  exact Expr.refers_construct.2 fun x hx => h x (List.mem_append_left _ hx)

theorem array_composes (element : ValueType) (values : List NodeId) :
    Composes env given (buildArray g element values) fun e => [e] := by
  refine .rule fun type => .bind (.values hg _) fun es => ?_
  refine .fill (useType_fills type) fun _ => .pure (follows_one fun known scope h => ?_)
  exact Expr.refers_construct.2 fun x hx => h x (List.mem_append_left _ hx)

theorem member_composes (base : NodeId) (name : String) :
    Composes env given (buildMember g base name) Option.toList := by
  refine .fill (typeOf_fills base) fun type => .look (.discard (.memberType type name)) fun _ => ?_
  exact .bind (.emit hg base) fun e => .pure (follows_map fun _ _ _ h => Expr.refers_member.2 h)

theorem element_composes (base : Option Expr) (source i : NodeId) :
    Composes env (base.toList ++ given) (buildElement g base source i) Option.toList := by
  refine .fill (typeOf_fills source) fun type => .fill (typeOf_fills i) fun index => ?_
  refine .look (.discard (.elementType type index)) fun _ => .look (.checkIndex type i) fun _ => ?_
  refine .bind (.value hg i index) fun i => .pure ?_
  cases base with
  | none => exact follows_nil
  | some e =>
    exact follows_one fun known scope h =>
      Expr.refers_index.2 ⟨h e (.tail _ (.head _)), h i (.head _)⟩

theorem index_composes (base i : NodeId) :
    Composes env given (buildIndex g base i) Option.toList :=
  .bind (.emit hg base) fun e => element_composes hg e base i

/-! ### Places and assignments -/

theorem placeBase_composes (base : NodeId) :
    Composes env given (placeBase g base) fun e => [e] := by
  refine .resolve fun m _ => .node fun n _ => ?_
  split
  · exact .storage fun b e => .check (.pure follows_head)
  · exact .bind (.place hg base) fun r => .pure follows_head

theorem place_composes (id : NodeId) (type : ValueType) (n : Node) :
    Composes env given (placeOf g id type n) fun e => [e] := by
  have own : Composes env given (ownPlace g id type) fun e => [e] := by
    refine .bind (.emit hg id) fun e => ?_
    cases e with
    | some e => exact .pure follows_head
    | none => exact .fail
  unfold placeOf
  split
  · exact .fail
  · exact own
  · exact own
  · refine .bind (.place hg _) fun r => .pure (follows_one fun known scope h => ?_)
    exact Expr.refers_member.2 (h _ (.head _))
  · refine .bind (placeBase_composes hg _) fun base =>
      .bind (element_composes hg (some base) _ _) fun e => ?_
    cases e with
    | some e => exact .pure follows_head
    | none => exact .fail
  · next base components =>
    refine .look .dialect fun d => ?_
    have rest : Composes env given (swizzlePlace g base components) fun e => [e] := by
      refine .bind (.place hg base) fun r => .rule fun cs =>
        .pure (follows_one fun known scope h => ?_)
      exact Expr.refers_swizzle.2 (h _ (.head _))
    refine .ite (fun _ => .look .dialect fun d => ?_) fun _ => rest
    exact fun _ _ _ => trivial
  · exact .fail

theorem buildPlace_composes (id : NodeId) :
    Composes env given (buildPlace g id) fun r => [r.1] := by
  refine .resolve fun m _ => .located (.node fun n _ => .fill (typeOf_fills m) fun type => ?_)
  exact .bind (place_composes hg m type n) fun e => .pure follows_head

omit hg in
/-- An assignment that a step makes is added. -/
theorem assignment_composes {step : Build Statement}
    (h : Composes env given step Statement.sides)
    (hr : Returns (fun st => st.target?.isSome) step) :
    Composes env given (step >>= addStatement) fun _ => [] := by
  intro s hs hg
  rw [meets_bind]
  refine ((h s hs hg).and (hr env s)).imp fun st s' ⟨⟨grows, refers⟩, isSome⟩ => ?_
  have add : Composes env st.sides (addStatement st) fun _ => [] := by
    cases st with
    | assign place value =>
      exact .add rfl rfl fun _ _ _ h =>
        .assign (h place (.head _)) (h value (.tail _ (.head _))) .nil
    | update place op value =>
      exact .add rfl rfl fun _ _ _ h =>
        .update (h place (.head _)) (h value (.tail _ (.head _))) .nil
    | _ => cases isSome
  exact (add s' (grows.tidy hs) refers).imp fun _ _ h => ⟨grows.trans h.1, h.2⟩

theorem buildAssign_composes (target value : NodeId) (op : Option BinaryOp) :
    Composes env given (buildAssign g target value op) fun _ => [] := by
  refine .bind (.place hg target) fun r => ?_
  cases op with
  | none =>
    refine assignment_composes (.bind (.value hg value _) fun e => .pure ?_)
      (.bind fun e => .pure rfl)
    exact .of_subset (by simp [Statement.sides])
  | some op =>
    refine assignment_composes ?_ ?_
    · refine .fill (typeOf_fills value) fun t => .rule fun result => .check ?_
      refine .bind (.value hg value _) fun e => .ite (fun _ => .pure ?_) fun _ => .pure ?_
      · intro known scope _ h x hx
        have both := h r.1 (.tail _ (.head _))
        have own := h e (.head _)
        simp only [Statement.sides, List.mem_cons, List.not_mem_nil, or_false] at hx
        rcases hx with rfl | rfl
        · exact both
        · exact Expr.refers_remainder.2 ⟨both, own⟩
      · exact .of_subset (by simp [Statement.sides])
    · refine .bind fun t => .bind fun result => .when fun _ => .bind fun e => ?_
      exact .ite (.pure rfl) (.pure rfl)

/-! ### Variables -/

/-- The value of a new variable is in scope where the name of the variable is taken. -/
theorem prepareVariable_claims {s : BuildState} (value : NodeId) (name : Option String)
    (hs : s.Tidy env.plan env.stage env.counters) :
    Meets (prepareVariable g id value name) env s (fun _ => True) fun v s' =>
      ∃ s₁, s.Grows env.plan env.stage env.counters s₁ ∧ s₁.Refers env.stage env.counters [v.2.1] ∧
        s₁.Claims env.plan env.stage env.counters v.2.2 s' := by
  unfold prepareVariable
  rw [meets_bind]
  refine (typeOf_fills id s rfl).imp fun type s₁ (fills : s.Fills env.plan s₁) => ?_
  have typed : s.Grows env.plan env.stage env.counters s₁ := fills.grows
  rw [meets_bind]
  have step : Composes env [] (g.value value type) fun e => [e] := .value hg value type
  refine (step s₁ (typed.tidy hs) fun _ he => nomatch he).imp fun init s₂ ⟨grows, refers⟩ => ?_
  rw [meets_bind]
  refine (useType_fills type s₂ rfl).imp fun _ s₃ (fills' : s₂.Fills env.plan s₃) => ?_
  have declared : s₂.Grows env.plan env.stage env.counters s₃ := fills'.grows
  have whole := (typed.trans grows).trans declared
  have init' := declared.refers refers
  cases name with
  | some name =>
    dsimp only
    rw [meets_bind]
    exact (claimLocal_claims name (whole.tidy hs)).imp fun n s₄ claims => ⟨s₃, whole, init', claims⟩
  | none =>
    dsimp only
    rw [meets_bind]
    exact (claimTemp_claims (whole.tidy hs)).imp fun n s₄ claims => ⟨s₃, whole, init', claims⟩

theorem buildVariable_composes (kind : ∃ m, env.plan.node id = .ok m ∧ m.mayBind = true)
    (value : NodeId) (name : Option String) (readOnly : Bool) :
    Composes env given (buildVariable g id value name readOnly) fun e => [e] := by
  refine .ask (fun n => .pure follows_head) fun s hs hr => ?_
  rw [meets_bind]
  refine (prepareVariable_claims hg value name hs).imp ?_
  rintro ⟨type, init, n⟩ s' ⟨s₁, grows, refers, claims⟩
  rw [meets_bind]
  unfold declareVariable
  rw [meets_bind]
  have looks : Law.looking.Keeps env (mutability value readOnly) := .mutability value readOnly
  refine (looks s' trivial).imp fun m s₂ hs₂ => ?_
  obtain rfl : s₂ = s' := hs₂
  let s₃ : BuildState := { s₂ with
    stages := s₂.stages.modify env.stage fun b =>
      b.add (.declare n type (some init) m (some (keyAt env s₂ id))) }
  have declared : s.Introduces env.plan env.stage env.counters n (some (keyAt env s₃ id)) s₃ :=
    (claims.declare (grows.tidy hs) fun e he => Option.some.inj he ▸ refers).after grows
  exact bindName_grows none kind hs declared

/-! ### Conditionals -/

theorem branch_composes (n : String) (type : ValueType) (c : NodeId) :
    Encloses env (localName n :: given) (buildBranch g n type c) := by
  refine .inBlock (.bind (.value hg c type) fun e => .add rfl rfl fun _ _ _ h => ?_)
  exact .assign (h _ (.tail _ (.head _))) (h e (.head _)) .nil

theorem choice_composes (kind : ∃ m, env.plan.node id = .ok m ∧ m.mayBind = true) (type : ValueType)
    (c : Expr) (thenNode elseNode : NodeId) :
    Composes env (c :: given) (buildChoice g id type c thenNode elseNode) Option.toList := by
  refine .look (.arePure _) fun pure => .ite (fun _ => .buildTemp kind ?_) fun _ s hs hr => ?_
  · refine .bind (.value hg thenNode type) fun t => .bind (.value hg elseNode type) fun e => ?_
    refine .pure (follows_one fun known scope h => ?_)
    have hc := h c (List.mem_append_right _ (List.mem_append_right _ (.head _)))
    exact Expr.refers_select.2 ⟨hc, h t (.tail _ (.head _)), h e (.head _)⟩
  · rw [meets_bind]
    have uninitialized : ∀ e, none = some e → s.Refers env.stage env.counters [e] :=
      fun _ he => nomatch he
    refine (declareTemp_introduces hs uninitialized).imp fun n s₁ declared => ?_
    have refers : s₁.Refers env.stage env.counters (localName n :: c :: given) := fun e he =>
      (List.mem_cons.1 he).elim (fun he => declared.ready.refers e (he ▸ .head _))
        (declared.toGrows.refers hr e)
    refine Encloses.both (branch_composes hg n type thenNode) (branch_composes hg n type elseNode)
      (declared.toGrows.tidy hs) refers (.tail _ (.head _)) fun s₂ grows => ?_
    exact bindTemp_composes kind hs (declared.trans grows)

theorem conditional_composes (kind : ∃ m, env.plan.node id = .ok m ∧ m.mayBind = true)
    (condition thenNode : NodeId) (elseNode : Option NodeId) :
    Composes env given (buildConditional g id condition thenNode elseNode) Option.toList := by
  refine .ask (fun n => .pure follows_head) (.fill (typeOf_fills id) fun type => ?_)
  refine .bind (.value hg condition .bool) fun c => ?_
  cases elseNode with
  | none =>
    intro s hs hr
    refine Encloses.hold (.inBlock (.statement hg thenNode)) hs hr (.head _) fun s' grows => ?_
    exact ⟨grows, fun _ he => nomatch he⟩
  | some elseNode =>
    refine .ite (fun _ s hs hr => ?_) fun _ => choice_composes hg kind type c thenNode elseNode
    refine Encloses.both (.inBlock (.statement hg thenNode))
      (.inBlock (.statement hg elseNode)) hs hr
      (.head _) fun s' grows => ?_
    exact ⟨grows, fun _ he => nomatch he⟩

/-! ### Loops, stacks and calls -/

theorem bound_composes (type : ValueType) (kind : ScalarKind) (b : LoopBound NodeId) :
    Composes env given (buildBound g type kind b) fun e => [e] := by
  cases b with
  | value v => exact .pure (follows_one fun _ _ _ => Expr.refers_literal _ _)
  | node id => exact .value hg id type

/-- The levels of a loop; further in, the counters of the levels around are in scope. -/
theorem levels_composes (body : Option NodeId) (level : Nat) (params : List (LoopParam NodeId)) :
    Composes env [] (buildLevels g id body level params) fun _ => [] := by
  induction params generalizing env level with
  | nil =>
    cases body with
    | none => exact .done
    | some body => exact .statement hg body
  | cons param rest ih =>
    rw [buildLevels]
    refine .rule fun kind => .read fun s hs hr => ?_
    rw [meets_bind]
    refine meets_claimLocal fun counter taken => ?_
    rw [NameTable.isTaken, Bool.or_eq_false_iff] at taken
    let s₀ : BuildState := { s with stages := s.stages.modify env.stage fun b =>
      { b with names := (s.stages.get env.stage).names.reserve counter } }
    have claims : s.Claims env.plan env.stage env.counters counter s₀ :=
      hs.claims taken.1 rfl (fun _ => rfl) fun _ => rfl
    have none' : ∀ {s : BuildState} {cs}, s.Refers env.stage cs [] :=
      fun _ he => absurd he List.not_mem_nil
    rw [meets_bind]
    refine (useType_fills param.type s₀ rfl).imp fun _ s₁ (fills : s₀.Fills env.plan s₁) => ?_
    have typed : s₀.Grows env.plan env.stage env.counters s₁ := fills.grows
    have tidy₁ := typed.tidy (claims.toGrows.tidy hs)
    rw [meets_bind]
    refine (bound_composes hg _ _ _ s₁ tidy₁ none').imp ?_
    rintro start s₂ ⟨grows₂, hstart⟩
    rw [meets_bind]
    refine (bound_composes hg _ _ _ s₂ (grows₂.tidy tidy₁) none').imp ?_
    rintro stop s₃ ⟨grows₃, hstop⟩
    have inner : s₀.Grows env.plan env.stage env.counters s₃ := (typed.trans grows₂).trans grows₃
    have body : Encloses { env with loops := ⟨id, level, counter⟩ :: env.loops } []
        (inBlock (buildLevels g id body (level + 1) rest)) := .inBlock (ih (level + 1))
    rw [meets_bind]
    refine (body s₃ (hs.enter claims inner) none').imp fun ss s₄ hands => ?_
    rw [meets_bind, releaseLocal, meets_modifyHere, addStatement, meets_modifyHere]
    exact ⟨.loop hs taken.1 inner hands (grows₃.refers hstart _ (.head _))
      (hstop _ (.head _)) rfl rfl, none'⟩

omit hg in
/-- The counter of a loop around is in scope. -/
theorem counter_composes (loop : NodeId) (param : Nat) :
    Composes env given (buildCounter loop param) fun e => [e] := by
  refine .resolve fun m _ => .read ?_
  split
  · next l hl =>
    refine fun s _ _ => ⟨.refl s, fun e he => ?_⟩
    have mem : l.counter ∈ env.counters := List.mem_map_of_mem (List.mem_of_find?_eq_some hl)
    exact List.mem_singleton.1 he ▸ Expr.refers_local (List.mem_append_right _ mem)
  · exact .fail

theorem loop_composes (params : List (LoopParam NodeId)) (body : Option NodeId) :
    Composes env given (buildLoop g id params body) fun _ => [] := by
  unfold buildLoop
  exact .check ((levels_composes hg body 0 params).mono (List.nil_subset _))

omit hg in
theorem jump_composes (j : Jump) : Composes env given (buildJump j) fun _ => [] :=
  .read (.check (.add rfl rfl fun _ _ _ _ => .jump .nil))

theorem stack_composes (nodes : List NodeId) (output : Option NodeId) :
    Composes env given (buildStack g nodes output) Option.toList := by
  refine .bind (.forM fun c _ => .statement hg c) fun _ => ?_
  cases output with
  | none => exact .pure follows_nil
  | some output => exact .emit hg output

theorem argument_composes (function : String) (arg : NodeId) (p : Native.Parameter) :
    Composes env given (buildArgument g function arg p) fun e => [e] := by
  refine .ite (fun _ => .bind (.place hg arg) fun r => .check (.pure ?_)) fun _ => .value hg arg _
  exact follows_one fun known scope h => Expr.refers_address.2 (h _ (.head _))

theorem call_composes (kind : ∃ m, env.plan.node id = .ok m ∧ m.mayBind = true)
    (function : FunctionId) (args : List NodeId) :
    Composes env given (buildCall g id function args) Option.toList := by
  refine .ask (fun n => .pure follows_head) (.fill (registerFunction_fills function) fun f => ?_)
  refine .check (.fill (useFunction_fills function) fun _ => ?_)
  refine .bind (.mapM fun a _ => argument_composes hg f.name a.1 a.2) fun values => ?_
  refine .ite (fun _ => ?_) fun _ s hs hr => ?_
  · refine .bind (.add rfl rfl fun _ _ _ h => ?_) fun _ => .pure follows_nil
    exact .call (fun e he => h e (List.mem_append_left _ he)) .nil
  · have call : ∀ e, some (Expr.call f.name values) = some e →
      s.Refers env.stage env.counters [e] := by
      rintro _ ⟨⟩ e he
      refine List.mem_singleton.1 he ▸ Expr.refers_call.2 fun x hx => ?_
      exact hr x (List.mem_append_left _ hx)
    rw [meets_bind]
    exact (declareTemp_introduces hs call).imp fun n s' h => bindTemp_composes kind hs h

end

end Build

end ShaderGraph
