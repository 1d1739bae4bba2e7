import ShaderGraph.Proofs.Supplies

/-!
# Nodes and their items

What generation of single nodes makes consists of items that are provided for
(`Sustained.generateNode_made`), whatever the generator below makes of other nodes. So does all that
generation makes (`Sustained.generator`), and the program of a stage keeps to the law
(`Sustained.generateStage`).
-/

namespace ShaderGraph

open Build

namespace CodeSupply.Sustained

variable {γ : Type} {S : CodeSupply γ} (h : S.Sustained) {env : Env} {given : List γ}
  {id : NodeId} {g : Generator}

include h

/-! ### Declarations -/

theorem localName {name : String} : S.Follows given (S.items (localName name)) := h.reference _

/-- A statement without blocks is added. -/
theorem plain_made {st : Statement} (hb : st.blocks = []) (ho : S.Follows given (S.ownItems st)) :
    S.Makes env given (addStatement st) fun _ => [] :=
  h.add (hb ▸ ho.append .nil)

theorem declareTemp_made (type : ValueType) {init : Option Expr} (m : Mutability)
    (hi : S.Follows given (S.optionItems init)) :
    S.Makes env given (declareTemp type init m) fun _ => [] := by
  refine .bind (h.useType_made type) fun _ => .after h.claimTemp fun n => ?_
  refine .bind (h.plain_made rfl (.append ?_ ?_)) fun _ => .done .nil
  · exact .of_subset (List.subset_append_left _ _)
  · exact hi.mono (List.subset_append_right _ _)

/-- A value that may be bound to a name. -/
theorem buildTemp_made {step : Build (Option Expr)} (hs : S.Makes env given step S.optionItems) :
    S.Makes env given (buildTemp id step) S.optionItems := by
  refine .after (.boundName? id) fun name => ?_
  cases name with
  | some name => exact .done h.localName
  | none =>
    refine .bind hs fun e => .after (h.typeOf id) fun type => ?_
    cases e with
    | none => exact .done .nil
    | some e =>
      have own : S.Follows (S.items e ++ given) (S.items e) :=
        .of_subset (List.subset_append_left _ _)
      refine .after (.usage id) fun count => .ite (fun _ => .done own) fun _ => ?_
      refine .bind (h.declareTemp_made type .immutable own) fun n => ?_
      exact .after (.read (h.bindName id n _)) fun _ => .done h.localName

section

variable (hg : S.Serves g)

include hg

/-! ### Assignments and variables -/

theorem assign_made (target value : NodeId) (op : Option BinaryOp) :
    S.Makes env given (buildAssign g target value op) fun _ => [] :=
  .bind (h.placeOf hg target) fun r => h.toComposed.write hg r.1 r.2 value op

theorem prepareVariable_made (value : NodeId) (name : Option String) :
    S.Makes env given (prepareVariable g id value name) fun v =>
      S.spelled v.1 ++ S.items v.2.1 := by
  refine .after (h.typeOf id) fun type => .bind (h.value hg value type) fun init =>
    .bind (h.useType_made type) fun _ => ?_
  have made : S.Follows (S.spelled type ++ (S.items init ++ given))
      (S.spelled type ++ S.items init) := .of_subset fun x hx => by
    simp only [List.mem_append] at hx ⊢
    tauto
  cases name with
  | some name => exact .after (h.claimLocal name) fun n => .done made
  | none => exact .after h.claimTemp fun n => .done made

omit hg in
theorem declareVariable_made (value : NodeId) (readOnly : Bool) (name : String) {type : ValueType}
    {init : Expr} (hi : S.Follows given (S.spelled type ++ S.items init)) :
    S.Makes env given (declareVariable id value readOnly name type init) fun _ => [] := by
  refine .after (.mutability value readOnly) fun m => .after (.recordKey id) fun key => ?_
  exact .bind (h.plain_made rfl hi) fun _ => .keep (h.bindName id name none)

theorem variable_made (value : NodeId) (name : Option String) (readOnly : Bool) :
    S.Makes env given (buildVariable g id value name readOnly) S.items := by
  refine .after (.boundName? id) fun bound => ?_
  cases bound with
  | some n => exact .done h.localName
  | none =>
    refine .bind (h.prepareVariable_made hg value name) fun v => ?_
    refine .bind (h.declareVariable_made value readOnly v.2.2 ?_) fun _ => .done h.localName
    exact .of_subset (List.subset_append_left _ _)

/-! ### Conditionals -/

theorem branch_made (n : String) (type : ValueType) (c : NodeId) :
    S.Makes env given (buildBranch g n type c) S.statementItems :=
  h.inBlock (.bind (h.value hg c type) fun _ => h.plain_made rfl
    (.append h.localName (.of_subset (List.subset_append_left _ _))))

omit hg in
/-- Two blocks that were closed become the branches of a conditional. -/
theorem both_made {c : Expr} {t e : List Statement} (hc : S.items c ⊆ given)
    (ht : S.statementItems t ⊆ given) (he : S.statementItems e ⊆ given) :
    S.Makes env given (addStatement (.branch c t (some e))) fun _ => [] := by
  refine h.add (.append (.of_subset hc) ?_)
  have blocks : S.statementItems (Statement.branch c t (some e)).blocks =
      S.statementItems t ++ S.statementItems e := Statement.collectIn_append t e
  exact blocks ▸ .of_subset (List.append_subset.2 ⟨ht, he⟩)

theorem choice_made (type : ValueType) (c : Expr) (thenNode elseNode : NodeId) :
    S.Makes env (S.items c ++ given) (buildChoice g id type c thenNode elseNode)
      S.optionItems := by
  refine .after (.arePure _) fun pure => .ite (fun _ => h.buildTemp_made ?_) fun _ => ?_
  · refine .bind (h.value hg thenNode type) fun t => .bind (h.value hg elseNode type) fun e => ?_
    refine .done (h.follows rfl nofun fun x hx => .of_subset fun y hy => ?_)
    have parts : (Expr.select c t e).parts = [c, t, e] := rfl
    rw [parts] at hx
    simp only [List.mem_cons, List.not_mem_nil, or_false] at hx
    rcases hx with rfl | rfl | rfl <;> simp [hy]
  · refine .bind (h.declareTemp_made type .mutable .nil) fun n => ?_
    refine .bind (h.branch_made hg n type thenNode) fun t =>
      .bind (h.branch_made hg n type elseNode) fun e => ?_
    refine .bind (h.both_made ?_ ?_ ?_) fun _ =>
      .after (.read (h.bindName id n _)) fun _ => .done h.localName
    all_goals exact fun _ ht => by simp [ht]

theorem conditional_made (condition thenNode : NodeId) (elseNode : Option NodeId) :
    S.Makes env given (buildConditional g id condition thenNode elseNode) S.optionItems := by
  refine .after (.boundName? id) fun bound => ?_
  cases bound with
  | some n => exact .done h.localName
  | none =>
    refine .after (h.typeOf id) fun type => .bind (h.value hg condition .bool) fun c => ?_
    cases elseNode with
    | none =>
      refine .bind (h.inBlock (hg.statement thenNode)) fun t => .bind (h.add ?_) fun _ =>
        .done .nil
      have block : S.statementItems (Statement.branch c t none).blocks = S.statementItems t :=
        congrArg S.statementItems (List.append_nil t)
      refine .append (.of_subset ?_) (block ▸ .of_subset (List.subset_append_left _ _))
      exact fun _ ht => List.mem_append_right _ (List.mem_append_left _ ht)
    | some elseNode =>
      refine .ite (fun _ => ?_) fun _ => h.choice_made hg type c thenNode elseNode
      refine .bind (h.inBlock (hg.statement thenNode)) fun t =>
        .bind (h.inBlock (hg.statement elseNode)) fun e => .bind (h.both_made ?_ ?_ ?_) fun _ =>
          .done .nil
      all_goals exact fun _ ht => by simp [ht]

/-! ### Loops, stacks and calls -/

theorem bound_made (type : ValueType) (kind : ScalarKind) (b : LoopBound NodeId) :
    S.Makes env given (buildBound g type kind b) S.items := by
  cases b with
  | value v => exact .done (h.atom rfl rfl rfl)
  | node id => exact h.value hg id type

omit h hg in
theorem inLoop_made {α : Type} {l : ActiveLoop} {step : Build α} {made : α → List γ}
    (hs : S.Makes { env with loops := l :: env.loops } given step made) :
    S.Makes env given (inLoop l step) made := fun s hi hp =>
  hs s (S.law.loops _ hi) hp

theorem levels_made (body : Option NodeId) (level : Nat) (params : List (LoopParam NodeId)) :
    S.Makes env given (buildLevels g id body level params) fun _ => [] := by
  induction params generalizing env given level with
  | nil =>
    cases body with
    | none => exact .done .nil
    | some body => exact hg.statement body
  | cons param rest ih =>
    rw [buildLevels]
    refine .rule fun kind _ => .read (.after (h.claimLocal _) fun counter => ?_)
    refine .bind (h.useType_made param.type) fun _ => .bind (h.bound_made hg _ _ _) fun start =>
      .bind (h.bound_made hg _ _ _) fun stop => ?_
    refine .bind (inLoop_made (h.inBlock (ih (level + 1)))) fun ss => ?_
    refine .after (h.releaseLocal counter) fun _ => h.add (.of_subset fun x hx => ?_)
    simp only [ownItems, statementItems, Statement.blocks, List.mem_append] at hx ⊢
    tauto

omit hg in
theorem counter_made (loop : NodeId) (param : Nat) :
    S.Makes env given (buildCounter loop param) S.items := by
  refine .resolve fun m _ => .read ?_
  split
  · exact .done h.localName
  · exact .fail

theorem loop_made (params : List (LoopParam NodeId)) (body : Option NodeId) :
    S.Makes env given (buildLoop g id params body) fun _ => [] := by
  unfold buildLoop
  exact .check (h.levels_made hg body 0 params)

omit hg in
theorem jump_made (j : Jump) : S.Makes env given (buildJump j) fun _ => [] :=
  .read (.check (h.plain_made rfl .nil))

omit h in
theorem stack_made (nodes : List NodeId) (output : Option NodeId) :
    S.Makes env given (buildStack g nodes output) S.optionItems := by
  refine .bind (.forM fun c _ => hg.statement c) fun _ => ?_
  cases output with
  | none => exact .done .nil
  | some output => exact hg.emitted output

theorem argument_made (function : String) (arg : NodeId) (p : Native.Parameter) :
    S.Makes env given (buildArgument g function arg p) S.items := by
  refine .ite (fun _ => .bind (h.placeOf hg arg) fun r => .check (.done ?_))
    fun _ => h.value hg arg _
  exact h.one rfl rfl rfl (List.subset_append_left _ _)

theorem call_made (function : FunctionId) (args : List NodeId) :
    S.Makes env given (buildCall g id function args) S.optionItems := by
  refine .after (.boundName? id) fun bound => ?_
  cases bound with
  | some n => exact .done h.localName
  | none =>
    refine .after (h.registerFunction function) fun f => .check ?_
    refine .after (h.useFunction function) fun _ => ?_
    refine .bind (.mapM fun a _ => h.argument_made hg f.name a.1 a.2) fun values => ?_
    have own : S.itemsIn values ⊆ values.flatMap S.items ++ given := List.subset_append_left _ _
    refine .ite (fun _ => .bind (h.plain_made rfl (.of_subset own)) fun _ => .done .nil) fun _ => ?_
    have result : S.Follows (values.flatMap S.items ++ given)
        (S.optionItems (some (.call f.name values))) := h.all rfl nofun rfl own
    refine .bind (h.declareTemp_made f.result .immutable result) fun n => ?_
    exact .after (.read (h.bindName id n _)) fun _ => .done h.localName

end

/-! ### All nodes -/

variable {n : Node} {fuel : Nat}

theorem generateNode_made (hg : S.Serves (generator fuel)) (hm : env.plan.resolve id = .ok id)
    (hn : env.plan.node id = .ok n) :
    S.Makes env [] (generateNode (generator fuel) id n) S.optionItems := by
  cases n with
  | const type values => exact .map some (h.constant_made type values)
  | uniform name type group update value =>
    exact h.uniform_made id name type group update value
  | meshAttribute name type => exact .map some (h.attribute_made name type)
  | varying source name interpolation sampling => exact .map some (h.varying hg hn)
  | property name type => exact .map some (h.property_made name type)
  | builtin b => exact .map some (h.builtin_made b)
  | texture name uv level => exact h.buildTemp_made (.map some (h.texture_made hg name uv level))
  | storageBuffer name element count access =>
    exact .map some (h.buffer_made name element count access)
  | var value name readOnly => exact .map some (h.variable_made hg value name readOnly)
  | assign target value op => exact .bind (h.assign_made hg target value op) fun _ => .done .nil
  | operator op left right => exact h.buildTemp_made (.map some (h.operator_made hg op left right))
  | unary op operand => exact h.buildTemp_made (h.unary_made hg op operand)
  | math method args => exact h.buildTemp_made (.map some (h.math_made hg id method args))
  | split source components => exact h.split_made hg source components
  | join parts type => exact h.buildTemp_made (.map some (h.join hg hm hn))
  | convert source target => exact h.buildTemp_made (h.convert_made hg source target)
  | conditional condition thenNode elseNode =>
    exact h.conditional_made hg condition thenNode elseNode
  | loop params body => exact .bind (h.loop_made hg params body) fun _ => .done .nil
  | loopIndex loop param => exact .map some (h.counter_made loop param)
  | jump j => exact .bind (h.jump_made j) fun _ => .done .nil
  | stack nodes output => exact stack_made hg nodes output
  | structType name members => exact .fail
  | struct layout values => exact h.buildTemp_made (.map some (h.struct hg hm hn))
  | array element values => exact h.buildTemp_made (.map some (h.array_made hg element values))
  | member base name => exact h.member hg hn
  | index base i => exact h.index hg hn
  | call function args => exact h.call_made hg function args
  | context inner values =>
    intro s hs hp
    show Meets (inContext id values ((generator fuel).emit inner)) env s _ _
    rw [meets_inContext]
    obtain ⟨grown, inv⟩ := h.inside hs hn
    refine (hg.emit inner _ inv fun _ hx => nomatch hx).imp fun e s' hr => ?_
    exact ⟨S.law.trans grown hr.1, hr.2⟩
  | contextValue key fallback =>
    intro s hs hp
    show Meets (withContextValue key fallback (generator fuel).emit) env s _ _
    rw [meets_withContextValue]
    split
    · next c outer found => exact hg.emit c s (h.lent hs found) fun _ hx => nomatch hx
    · next c _ => exact hg.emit c s hs hp
    · trivial
  | cache inner shares =>
    intro s hs hp
    unfold generateNode
    rw [meets_bind, meets_cacheScope, meets_inScope]
    obtain ⟨grown, inv⟩ := h.scope id shares hs
    refine (hg.emit inner _ inv fun _ hx => nomatch hx).imp fun e s' hr => ?_
    exact ⟨S.law.trans grown hr.1, hr.2⟩
  | remap => exact .fail
  | custom => exact .fail

/-- The code of a node is provided for, and what is known of a visit to it. -/
theorem generateNode_visited (hg : S.Serves (generator fuel)) (hm : env.plan.resolve id = .ok id)
    (hn : env.plan.node id = .ok n) :
    S.Makes env [] (generateNode (generator fuel) id n) fun code =>
      S.optionItems code ++ S.visited env id n code := by
  by_cases hv : S.visited env id n = fun _ => []
  · simp only [hv, List.append_nil]
    exact h.generateNode_made hg hm hn
  · intro s hs hp
    refine ((h.generateNode_made hg hm hn s hs hp).and (h.visited hg hm hn hv s hs hp)).imp ?_
    exact fun _ _ hr => ⟨hr.1.1, List.forall_mem_append.2 ⟨hr.1.2, hr.2.2⟩⟩

/-- All that generation makes is provided for. -/
theorem generator (fuel : Nat) : S.Serves (generator fuel) := by
  induction fuel with
  | zero => exact ⟨fun _ _ _ _ => trivial, fun _ _ _ _ => trivial⟩
  | succ fuel ih =>
    refine ⟨fun {env} id s hs hp => ?_, fun id => h.place ih⟩
    refine meets_emitNode (fun _ => trivial) fun m n hm hn => ?_
    refine (h.generateNode_visited ih (Plan.resolve_of_resolve hm) hn s hs hp).imp ?_
    rintro code s' ⟨goes, made⟩
    obtain ⟨own, known⟩ := List.forall_mem_append.1 made
    have logged : S.law.rel [] s' { s' with visits := visitAt env s m code :: s'.visits } :=
      h.visit (S.law.mono hs goes) hn known
    exact ⟨S.law.trans goes logged, fun x hx => S.keep logged (own x hx)⟩

theorem generateRoot (t : Stage) (root : NodeId) :
    S.Makes env [] (generateRoot t root) S.optionItems := by
  refine .after (.read (.pure _)) fun fuel => ?_
  have hg := h.generator fuel
  cases t with
  | vertex | fragment => exact .map some (h.value hg root .vec4)
  | compute =>
    refine .bind (hg.emitted root) fun e => .ite (fun _ => ?_) fun _ => .done .nil
    exact .bind (.discard (.keep (h.typeOf root))) fun _ => .done .nil

/-- The program of a stage is generated; its output is what the root is made of. -/
theorem generateStage (root : NodeId) : S.Makes env [] (generateStage root) fun _ => [] :=
  .after .stage fun t => .bind (h.generateRoot t root) fun output =>
    h.output output

end CodeSupply.Sustained

end ShaderGraph
