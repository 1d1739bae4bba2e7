import ShaderGraph.Proofs.Asked

/-!
# What single steps of generation ask for

In a plain plan there are no contexts around a step, all records are kept in the scope of the stage
as a whole, and all statements go to the outermost block. The value of a node asks for the node
(`value_asks`), and what computes the value of a node asks for its operands (`computation_asks`). A
place asks for the node that is assigned to (`buildPlace_asks`).
-/

namespace ShaderGraph

open Build

/-- What generation keeps to in a plain plan. -/
def Asking.generating (p : Plan) : Asking where
  inv env s := ((env.plan = p ∧ env.typing = []) ∧ env.frames = []) ∧ Placed p .root env s ∧
    s.Coherent p ∧ s.Orderly p
  rel := BuildState.Asks p
  refl := .refl
  trans := .trans
  mono hi hr := ⟨hi.1, hi.2.1.mono hr.proceeds.advances, hr.proceeds.finds.coherent hi.2.2.1,
    hr.orderly hi.2.2.2⟩
  loops l hi := ⟨hi.1, hi.2.1.loops l, hi.2.2⟩

/-- A math method brings each of its arguments to a type. -/
theorem MathMethod.length_argumentTypes {m : MathMethod} {types targets : List ValueType}
    {result : ValueType} (arity : types.length = m.arity)
    (h : m.argumentTypes types result = .ok targets) : targets.length = types.length := by
  have mapped : ∀ {r : Except TypeError ValueType} {f : ValueType → List ValueType},
      r.map f = .ok targets → (∀ t, (f t).length = m.arity) → targets.length = types.length := by
    intro r f h length
    cases r with
    | error e => cases h
    | ok t =>
      cases h
      exact (length t).trans arity.symm
  cases m with
  | length | normalize | dot | distance | reflect => exact mapped h fun _ => rfl
  | cross =>
    cases h
    exact arity.symm
  | _ =>
    cases h
    exact List.length_map _

namespace Build

open Law BuildState

variable {p : Plan} {env : Env} {g : Generator} {s s' : BuildState} {id c : NodeId} {n : Node}
  {t : ValueType} {a b : List CacheKey} {α : Type}

/-! ### Steps that ask for nothing -/

theorem generating_tabular : (Asking.generating p).law.Tabular True where
  exhausted _ := trivial
  founded _ := absurd trivial
  rel _ h := .of_still (.of_core h) (still_of_core h)

theorem generating_finding (hi : (Asking.generating p).inv env s) :
    (Law.finding p [] []).inv env s := by
  obtain ⟨⟨surroundings, frames⟩, -, coherent, -⟩ := hi
  refine ⟨surroundings, coherent, ?_⟩
  rw [frames]
  trivial

/-- What finds types and leaves all else alone asks for nothing. -/
theorem generating_ofFinding {step : Build α} (hf : (Law.finding p [] []).Keeps env step)
    (ht : Law.typing.Keeps env step) : (Asking.generating p).law.Keeps env step := by
  intro s hi
  refine ((hf s (generating_finding hi)).and (ht s trivial)).imp fun _ s' hr => ?_
  exact .of_still hr.1.1 hr.2

theorem typeOf_asks (c : NodeId) (hi : (Asking.generating p).inv env s) :
    Meets (typeOf c) env s (fun _ => True) fun t s' => s.Asks p [] s' ∧
      ∀ m, p.resolve c = .ok m → s'.typeIn? ⟨m, []⟩ = some t := by
  refine ((typeOf_finds c s (generating_finding hi)).and (typeOf_still c s trivial)).imp ?_
  exact fun t s' hr => ⟨.of_still hr.1.1.1 hr.2, hr.1.2⟩

theorem typeOf_silent (c : NodeId) : (Asking.generating p).law.Keeps env (typeOf c) :=
  fun _ hi => (typeOf_asks c hi).imp fun _ _ hr => hr.1

/-- A statement goes to the outermost block. -/
theorem addStatement_asks (st : Statement) (hi : (Asking.generating p).inv env s) :
    Meets (addStatement st) env s (fun _ => True) fun _ s' => s.Asks p [] s' ∧
      st ∈ (s'.stages.get env.stage).outer.statements := by
  have flat : (s.stages.get env.stage).inner = [] := by
    rw [StageBuild.inner_eq_nil_iff, hi.2.2.2.blocks]
    exact le_rfl
  refine ⟨.of_same (.modify s env.stage (fun b => ?_) fun b => ?_) rfl (fun _ => rfl) fun _ => rfl, ?_⟩
  · unfold StageBuild.add
    split
    · exact List.prefix_append _ _
    · exact List.prefix_rfl
  · unfold StageBuild.add StageBuild.openBlocks
    split
    · next h => rw [h]
    · next h => rw [h]; rfl
  · show st ∈ ((s.stages.modify env.stage fun b => b.add st).get env.stage).outer.statements
    rw [PerStage.get_modify, if_pos rfl, StageBuild.add, flat]
    exact List.mem_append_right _ (.head _)

theorem addStatement_silent (st : Statement) :
    (Asking.generating p).law.Keeps env (addStatement st) :=
  fun _ hi => (addStatement_asks st hi).imp fun _ _ h => h.1

theorem generating_straight : (Asking.generating p).law.Straight :=
  generating_tabular.straight
    (fun _ f => generating_ofFinding (registerFunction_finds f).keeps (registerFunction_still f))
    (fun _ f => generating_ofFinding (useFunction_finds f) (useFunction_still f))
    fun hi _ hr => (addStatement_asks _ ((Asking.generating p).mono hi hr)).imp
      fun _ _ h => hr.trans h.1

/-! ### Values -/

/-- The step asks for the keys `a`; it has code unless `P`. -/
def Codes (p : Plan) (env : Env) (s : BuildState) (a : List CacheKey) (P : Prop)
    (step : Build (Option Expr)) : Prop :=
  Meets step env s (fun _ => True) fun code s' => s.Asks p a s' ∧ (code = none → P)

theorem Codes.imp {P P' : Prop} {step : Build (Option Expr)} (h : Codes p env s a P step)
    (hP : P → P') : Codes p env s a P' step :=
  Meets.imp h fun _ _ hr => ⟨hr.1, hP ∘ hr.2⟩

/-- Other steps came first. -/
theorem Codes.after {P : Prop} {step : Build (Option Expr)} (h : Codes p env s' a P step)
    (hs : s.Asks p b s') : Meets step env s' (fun _ => True) fun code s'' =>
      s.Asks p (b ++ a) s'' ∧ (code = none → P) :=
  Meets.imp h fun _ _ hr => ⟨hs.trans hr.1, hr.2⟩

/-- The steps of a generator ask for the nodes that they are called for. A node without code is
mute. -/
structure Generating (p : Plan) (g : Generator) : Prop where
  emit : ∀ {env id s}, (Asking.generating p).inv env s →
    Codes p env s (p.keysOf (some env.stage) [id]) (∃ m, p.resolve id = .ok m ∧ p.Mute m) (g.emit id)
  place : ∀ {env id}, (Asking.generating p).Asks env (p.keysOf (some env.stage) [id]) (g.place id)

namespace Generating

theorem emits (hg : Generating p g) (c : NodeId) :
    (Asking.generating p).Asks env (p.keysOf (some env.stage) [c]) (g.emit c) :=
  fun _ hi => Meets.imp (hg.emit hi) fun _ _ hr => hr.1

theorem statement (hg : Generating p g) (c : NodeId) :
    (Asking.generating p).Asks env (p.keysOf (some env.stage) [c]) (g.statement c) :=
  .discard (hg.emits c)

/-- A node whose type is not void has code. -/
theorem emit_some (hg : Generating p g) (hi : (Asking.generating p).inv env s)
    (ht : ∀ m, p.resolve c = .ok m → s.typeIn? ⟨m, []⟩ = some t) (hv : t ≠ .void) :
    Codes p env s (p.keysOf (some env.stage) [c]) False (g.emit c) := by
  refine Meets.imp (hg.emit hi) ?_
  rintro code s' ⟨hr, mute⟩
  refine ⟨hr, fun none => hv ?_⟩
  obtain ⟨m, hm, mute⟩ := mute none
  have coherent := ((Asking.generating p).mono hi hr).2.2.1
  exact mute.void coherent (hr.proceeds.finds.typeIn? (ht m hm))

/-- The value of a node asks for the node. -/
theorem value (hg : Generating p g) (c : NodeId) (target : ValueType) :
    (Asking.generating p).Asks env (p.keysOf (some env.stage) [c]) (g.value c target) := by
  intro s hi
  obtain rfl := hi.1.1.1
  refine Asking.Asks.resolve (fun m hm => .located ?_) s hi
  have same : env.plan.keysOf (some env.stage) [c] = env.plan.keysOf (some env.stage) [m] := by
    rw [Plan.keysOf_singleton hm, Plan.keysOf_singleton (Plan.resolve_of_resolve hm)]
  rw [same]
  refine .before (hg.emits m) fun e => .bind (typeOf_silent m) fun type => ?_
  cases e with
  | none => exact .fail rfl
  | some e => exact .when (fun _ => .fail rfl) fun _ => .ofExcept fun _ _ => rfl

theorem values (hg : Generating p g) (ids : List (NodeId × ValueType)) :
    (Asking.generating p).Asks env (p.keysOf (some env.stage) (ids.map Prod.fst)) (g.values ids) := by
  have asked : p.keysOf (some env.stage) (ids.map Prod.fst) =
      ids.flatMap fun v => p.keysOf (some env.stage) [v.1] := by
    rw [Plan.keysOf_flatMap, List.flatMap_map]
  rw [asked]
  exact .mapM fun v _ => hg.value v.1 v.2

theorem valuesOf (hg : Generating p g) {ids : List NodeId} {types : List ValueType}
    (length : ids.length = types.length) :
    (Asking.generating p).Asks env (p.keysOf (some env.stage) ids) (g.values (ids.zip types)) := by
  have asked : (Asking.generating p).Asks env _ (g.values (ids.zip types)) :=
    hg.values (ids.zip types)
  rwa [List.map_fst_zip length.le] at asked

end Generating

/-! ### Computations -/

/-- A value is there. -/
theorem codes_some {P : Prop} {step : Build Expr} (h : (Asking.generating p).Asks env a step)
    (hi : (Asking.generating p).inv env s) : Codes p env s a P (some <$> step) := by
  unfold Codes
  rw [meets_map]
  refine (h s hi).imp fun e s' hr => ⟨hr, ?_⟩
  rintro ⟨⟩

/-- A part of the value of a node whose type is not void. -/
theorem codes_part {P : Prop} (hg : Generating p g) (hi : (Asking.generating p).inv env s)
    (f : Expr → Expr) (ht : ∀ m, p.resolve c = .ok m → s.typeIn? ⟨m, []⟩ = some t)
    (hv : t ≠ .void) : Codes p env s (p.keysOf (some env.stage) [c]) P
      (g.emit c >>= fun e => pure (e.map f)) := by
  unfold Codes
  rw [meets_bind]
  refine Meets.imp (hg.emit_some hi ht hv) fun code s' hr => ⟨hr.1, fun none => ?_⟩
  exact (hr.2 (Option.map_eq_none_iff.1 none)).elim

theorem codes_unary {P : Prop} (hg : Generating p g) (hi : (Asking.generating p).inv env s)
    (op : UnaryOp) (c : NodeId) :
    Codes p env s (p.keysOf (some env.stage) [c]) P (buildUnary g op c) := by
  unfold Codes buildUnary
  rw [meets_bind]
  refine (typeOf_asks c hi).imp ?_
  rintro type s₁ ⟨h₁, typed⟩
  rw [meets_bind, meets_discard, meets_ofExcept]
  split
  · next result applies =>
    have value : type ≠ .void := by
      rintro rfl
      cases op <;> cases applies
    exact (codes_part hg ((Asking.generating p).mono hi h₁) _ typed value).after h₁
  · trivial

/-- A conversion of what has no value is one to void. -/
theorem codes_convert (hg : Generating p g) (hi : (Asking.generating p).inv env s)
    (hn : p.node id = .ok (.convert c t)) :
    Codes p env s (p.keysOf (some env.stage) [c]) (p.Mute id) (buildConvert g c t) := by
  unfold Codes buildConvert
  rw [meets_bind]
  refine (typeOf_asks c hi).imp ?_
  rintro type s₁ ⟨h₁, typed⟩
  have hi₁ := (Asking.generating p).mono hi h₁
  rw [meets_bind]
  refine Meets.imp (hg.emit hi₁) ?_
  rintro code s₂ ⟨h₂, mute⟩
  have asked := h₁.trans h₂
  cases code with
  | some e =>
    dsimp only
    rw [meets_bind, meets_ofExcept]
    split
    · exact ⟨asked, by rintro ⟨⟩⟩
    · trivial
  | none =>
    refine meets_check fun same => ⟨asked, fun _ => ?_⟩
    obtain ⟨m, hm, mute⟩ := mute rfl
    have coherent := ((Asking.generating p).mono hi₁ h₂).2.2.1
    have void := mute.void coherent (h₂.proceeds.finds.typeIn? (typed m hm))
    obtain rfl : t = .void := (not_not.1 same).symm.trans void
    exact .convert hn

/-- A math method asks for its arguments: there are as many as the method takes. -/
theorem buildMath_asks (hg : Generating p g) (hm : p.resolve id = .ok id) {m : MathMethod}
    {args : List NodeId} (hn : p.node id = .ok (.math m args)) :
    (Asking.generating p).Asks env (p.keysOf (some env.stage) args) (buildMath g id m args) := by
  refine .after .stage fun stage => .check fun _ s hi => ?_
  show Meets (typeOf id >>= _) env s _ _
  rw [meets_bind]
  refine (typeOf_asks id hi).imp ?_
  rintro result s₁ ⟨h₁, typed⟩
  have hi₁ := (Asking.generating p).mono hi h₁
  have arity : args.length = m.arity := (hi₁.2.2.1.fits (typed id hm)).own hn
  rw [meets_bind]
  have types : (Asking.generating p).law.Keeps env (args.mapM typeOf) :=
    .mapM fun c _ => typeOf_silent c
  refine ((types s₁ hi₁).and (returns_length typeOf args env s₁)).imp ?_
  rintro types s₂ ⟨h₂, length⟩
  have hi₂ := (Asking.generating p).mono hi₁ h₂
  rw [meets_bind, meets_ofExcept]
  split
  · next targets htargets =>
    have targets := MathMethod.length_argumentTypes (length.trans arity) htargets
    rw [meets_bind]
    refine (hg.valuesOf (targets.trans length).symm s₂ hi₂).imp fun _ _ h₃ => ?_
    exact h₁.trans (h₂.trans h₃)
  · trivial

/-- A struct asks for its members: its layout was looked up. -/
theorem buildStruct_asks (hg : Generating p g) (hm : p.resolve id = .ok id) {layout : NodeId}
    {values : List NodeId} (hn : p.node id = .ok (.struct layout values)) :
    (Asking.generating p).Asks env (p.keysOf (some env.stage) (p.operands (.struct layout values)))
      (buildStruct g id values) := by
  intro s hi
  unfold buildStruct
  rw [meets_bind]
  refine (typeOf_asks id hi).imp ?_
  rintro type s₁ ⟨h₁, typed⟩
  have hi₁ := (Asking.generating p).mono hi h₁
  have found : p.isLayout layout = true := (hi₁.2.2.1.fits (typed id hm)).own hn
  have operands : p.operands (.struct layout values) = values := if_pos found
  rw [operands]
  rw [meets_bind, meets_structMembers]
  split
  · next members _ =>
    refine meets_check fun length => ?_
    have members : (Asking.generating p).Asks env (p.keysOf (some env.stage) values) (do
        let args ← g.values (values.zip (members.map Member.type))
        useType type
        return Expr.construct type args) := by
      refine .before (hg.valuesOf ?_) fun _ => .bind (generating_straight.useType type) fun _ => .pure _
      rw [List.length_map, not_not.1 length]
    exact (members s₁ hi₁).imp fun _ _ h₂ => h₁.trans h₂
  · trivial

/-- What computes the value of a node asks for the operands of the node. -/
theorem codes_computation (hg : Generating p g) (hi : (Asking.generating p).inv env s)
    (hm : p.resolve id = .ok id) (hn : p.node id = .ok n) {step : Build (Option Expr)}
    (hc : computation? g id n = some step) :
    Codes p env s (p.keysOf (some env.stage) (p.operands n)) (p.Mute id) step := by
  have straight : (Asking.generating p).law.Straight := generating_straight
  cases n with
  | texture name uv level =>
    cases hc
    refine codes_some ?_ hi
    show (Asking.generating p).Asks env (p.keysOf (some env.stage) (uv :: level.toList)) _
    rw [Plan.keysOf_cons]
    refine .bind (hg.value uv .vec2) fun _ => .before ?_ fun _ =>
      .bind (straight.useTexture name) fun _ => .pure _
    cases level with
    | some level => exact .before (hg.value level .float) fun _ => .pure _
    | none => exact .of_keeps (.bind .stage fun _ => .pure _)
  | operator op left right =>
    cases hc
    refine codes_some ?_ hi
    show (Asking.generating p).Asks env (p.keysOf (some env.stage) [left, right]) _
    rw [Plan.keysOf_cons]
    refine .after (typeOf_silent left) fun l => .after (typeOf_silent right) fun r => ?_
    refine .ofExcept fun result _ => .bind (hg.value left _) fun _ => ?_
    exact .before (hg.value right _) fun _ => .ite (fun _ => .pure _) fun _ => .pure _
  | unary op c =>
    cases hc
    exact codes_unary hg hi op c
  | math m args =>
    cases hc
    exact codes_some (buildMath_asks hg hm hn) hi
  | join parts type =>
    cases hc
    refine codes_some ?_ hi
    show (Asking.generating p).Asks env (p.keysOf (some env.stage) parts) _
    rw [Plan.keysOf_flatMap]
    refine .after (typeOf_silent id) fun t => .before (.mapM fun part _ => ?_) fun _ =>
      .bind (straight.useType t) fun _ => .pure _
    exact .after (typeOf_silent part) fun t => hg.value part _
  | convert c t =>
    cases hc
    exact codes_convert hg hi hn
  | struct layout values =>
    cases hc
    exact codes_some (buildStruct_asks hg hm hn) hi
  | array element values =>
    cases hc
    refine codes_some (.ofExcept fun type _ => ?_) hi
    have asked : (Asking.generating p).Asks env _ (g.values (values.map fun v => (v, element))) :=
      hg.values _
    rw [List.map_map] at asked
    refine .before (cast ?_ asked) fun _ => .bind (straight.useType type) fun _ => .pure _
    rw [show values.map (Prod.fst ∘ fun v => (v, element)) = values from List.map_id values]
    rfl
  | _ => cases hc

/-! ### Parts -/

theorem codes_split {P : Prop} (hg : Generating p g) (hi : (Asking.generating p).inv env s)
    (c : NodeId) (components : String) :
    Codes p env s (p.keysOf (some env.stage) [c]) P (buildSplit g c components) := by
  unfold Codes buildSplit
  rw [meets_bind]
  refine (typeOf_asks c hi).imp ?_
  rintro type s₁ ⟨h₁, typed⟩
  rw [meets_bind, meets_discard, meets_ofExcept]
  split
  · next result swizzled =>
    have value : type ≠ .void := by
      rintro rfl
      cases swizzled
    rw [meets_bind, meets_ofExcept]
    split
    · exact (codes_part hg ((Asking.generating p).mono hi h₁) _ typed value).after h₁
    · trivial
  · trivial

theorem codes_member {P : Prop} (hg : Generating p g) (hi : (Asking.generating p).inv env s)
    (c : NodeId) (name : String) :
    Codes p env s (p.keysOf (some env.stage) [c]) P (buildMember g c name) := by
  unfold Codes buildMember
  rw [meets_bind]
  refine (typeOf_asks c hi).imp ?_
  rintro type s₁ ⟨h₁, typed⟩
  have hi₁ := (Asking.generating p).mono hi h₁
  rw [meets_bind]
  by_cases value : type = .void
  · subst value
    trivial
  have look : (Asking.generating p).law.Keeps env (discard (memberType type name)) :=
    .discard (.memberType type name)
  refine (look s₁ hi₁).imp fun _ s₂ h₂ => ?_
  have typed₂ : ∀ m, p.resolve c = .ok m → s₂.typeIn? ⟨m, []⟩ = some type :=
    fun m hm => BuildState.Finds.typeIn? (BuildState.Asks.proceeds h₂).finds (typed m hm)
  have code := codes_part (P := P) hg ((Asking.generating p).mono hi₁ h₂) (fun e => .member e name)
    typed₂ value
  exact code.after (h₁.trans h₂)

/-- An index asks for its position. -/
theorem buildElement_asks (hg : Generating p g) (base : Option Expr) (source i : NodeId) :
    (Asking.generating p).Asks env (p.keysOf (some env.stage) [i]) (buildElement g base source i) := by
  refine .after (typeOf_silent source) fun type => .after (typeOf_silent i) fun index => ?_
  refine .after (.discard (.elementType type index)) fun _ => .after (.checkIndex type i) fun _ => ?_
  exact .before (hg.value i index) fun _ => .pure _

theorem returns_element (base : Option Expr) (source i : NodeId) :
    Returns (fun code => code = none → base = none) (buildElement g base source i) :=
  .bind fun _ => .bind fun _ => .bind fun _ => .bind fun _ => .bind fun _ =>
    .pure Option.map_eq_none_iff.1

theorem codes_index {P : Prop} (hg : Generating p g) (hi : (Asking.generating p).inv env s)
    (c i : NodeId) : Codes p env s (p.keysOf (some env.stage) [c, i]) P (buildIndex g c i) := by
  unfold Codes buildIndex
  rw [meets_bind, Plan.keysOf_cons]
  refine Meets.imp (hg.emit hi) ?_
  rintro base s₁ ⟨h₁, mute⟩
  have hi₁ := (Asking.generating p).mono hi h₁
  cases base with
  | some e =>
    refine ((buildElement_asks hg (some e) c i s₁ hi₁).and
      (returns_element (some e) c i env s₁)).imp fun code s₂ h₂ => ⟨h₁.trans h₂.1, fun none => ?_⟩
    cases h₂.2 none
  | none =>
    -- what has no value has no elements
    obtain ⟨m, hm, mute⟩ := mute rfl
    unfold buildElement
    rw [meets_bind]
    refine (typeOf_asks c hi₁).imp ?_
    rintro type s₂ ⟨h₂, typed⟩
    obtain rfl := mute.void ((Asking.generating p).mono hi₁ h₂).2.2.1 (typed m hm)
    rw [meets_bind]
    refine (meets_true _).imp fun index s₃ _ => ?_
    rw [meets_bind, meets_discard]
    exact (meets_ite _ _ _).2 ⟨fun _ => trivial, fun _ => trivial⟩

/-! ### Statements and calls -/

/-- An argument of a call asks for its node. -/
theorem buildArgument_asks (hg : Generating p g) (function : String) (arg : NodeId)
    (parameter : Native.Parameter) :
    (Asking.generating p).Asks env (p.keysOf (some env.stage) [arg])
      (buildArgument g function arg parameter) := by
  refine .ite (fun _ => ?_) fun _ => hg.value arg _
  refine .before hg.place fun place => ?_
  exact .when (fun _ => .fail rfl) fun _ => .pure _

theorem buildAssign_asks (hg : Generating p g) (target value : NodeId) (op : Option BinaryOp) :
    (Asking.generating p).Asks env (p.keysOf (some env.stage) [target, value])
      (buildAssign g target value op) := by
  rw [Plan.keysOf_cons]
  refine .bind hg.place fun place => ?_
  cases op with
  | none => exact .before (.before (hg.value value _) fun _ => .pure _) addStatement_silent
  | some op =>
    refine .before (.after (typeOf_silent value) fun t => .ofExcept fun result _ => ?_)
      addStatement_silent
    refine .check fun _ => .before (hg.value value _) fun e => ?_
    exact .ite (fun _ => .pure _) fun _ => .pure _

theorem codes_stack (hg : Generating p g) (hi : (Asking.generating p).inv env s)
    {nodes : List NodeId} {output : Option NodeId} (hn : p.node id = .ok (.stack nodes output)) :
    Codes p env s (p.keysOf (some env.stage) (nodes ++ output.toList)) (p.Mute id)
      (buildStack g nodes output) := by
  have statements : (Asking.generating p).Asks env (p.keysOf (some env.stage) nodes)
      (nodes.forM g.statement) := by
    rw [Plan.keysOf_flatMap]
    exact .forM fun c _ => hg.statement c
  unfold Codes buildStack
  rw [meets_bind, Plan.keysOf_append]
  refine (statements s hi).imp fun _ s₁ h₁ => ?_
  cases output with
  | none => exact ⟨h₁.trans (.refl s₁), fun _ => .still hn rfl⟩
  | some output =>
    refine Meets.imp (hg.emit ((Asking.generating p).mono hi h₁)) ?_
    rintro code s₂ ⟨h₂, mute⟩
    refine ⟨h₁.trans h₂, fun none => ?_⟩
    obtain ⟨m, hm, mute⟩ := mute none
    exact .passes hn rfl hm mute

/-- A step without a value, of a node that is generated for its statements. -/
theorem codes_still (hi : (Asking.generating p).inv env s) {step : Build Unit}
    (h : (Asking.generating p).Asks env a step) (hn : p.node id = .ok n) (hs : n.isStill = true) :
    Codes p env s a (p.Mute id) (withoutValue step) := by
  unfold Codes withoutValue
  rw [meets_bind]
  exact (h s hi).imp fun _ _ hr => ⟨hr, fun _ => .still hn hs⟩

/-! ### All nodes that are not bound -/

/-- A node that is not bound asks for its operands. -/
theorem codes_unbound (hg : Generating p g) (hi : (Asking.generating p).inv env s)
    (hn : p.node id = .ok n) (plain : n.keepsPlace = true) (hb : n.mayBind = false)
    (hv : n.isVarying = false) :
    Codes p env s (p.keysOf (some env.stage) (p.operands n)) (p.Mute id) (generateNode g id n) := by
  have straight : (Asking.generating p).law.Straight := generating_straight
  cases n with
  | const type values => exact codes_some (.of_keeps (.buildConstant straight.toPlain type values)) hi
  | uniform name type group update value =>
    unfold Codes generateNode
    rw [meets_bind]
    refine (straight.registerUniform id name type group update value s hi).imp ?_
    rintro ⟨group, u⟩ s₁ h₁
    have use : (Asking.generating p).Asks env [] (useUniform group u) :=
      .of_keeps (straight.useUniform group u)
    exact (codes_some use ((Asking.generating p).mono hi h₁)).after h₁
  | meshAttribute name type =>
    exact codes_some (.of_keeps (.buildAttribute straight.toPlain name type)) hi
  | property name type => exact codes_some (.of_keeps (straight.property name type)) hi
  | builtin b => exact codes_some (.of_keeps (straight.useBuiltin b)) hi
  | storageBuffer name element count access =>
    exact codes_some (.of_keeps (.buildStorage straight.toPlain name element count access)) hi
  | loopIndex loop param => exact codes_some (.of_keeps (.buildCounter loop param)) hi
  | assign target value op => exact codes_still hi (buildAssign_asks hg target value op) hn rfl
  | jump j => exact codes_still hi (.of_keeps (.buildJump straight j)) hn rfl
  | split source components => exact codes_split hg hi source components
  | member base name => exact codes_member hg hi base name
  | index base i => exact codes_index hg hi base i
  | stack nodes output => exact codes_stack hg hi hn
  | contextValue key fallback =>
    unfold Codes
    show Meets (withContextValue key fallback g.emit) env s _ _
    have nothing : Frame.lookup? key env.frames = none := by
      rw [hi.1.2]
      rfl
    rw [meets_withContextValue, nothing]
    cases fallback with
    | none => trivial
    | some c =>
      refine (hg.emit hi).imp ?_
      rintro ⟨m, hm, mute⟩
      exact .fallback hn hm mute
  | cache inner shares =>
    obtain rfl : shares = true := by
      cases shares
      · cases plain
      · rfl
    unfold Codes generateNode
    rw [meets_bind, meets_cacheScope, meets_inScope]
    obtain ⟨advances, placed⟩ := hi.2.1.cacheScope hn rfl
    have grown : s.Asks p [] { s with cache := (s.cache.scopeFor env.scope id true).2 } :=
      .of_same (.of_quiet advances (.of_eq rfl rfl rfl rfl) .scopeFor NodeCache.records_scopeFor) rfl
        Quiet.scopeFor.bound fun _ => rfl
    let inner' : Env := { env with scope := (s.cache.scopeFor env.scope id true).1 }
    have hi₁ : (Asking.generating p).inv inner'
        { s with cache := (s.cache.scopeFor env.scope id true).2 } := by
      obtain ⟨surroundings, -, rest⟩ := (Asking.generating p).mono hi grown
      exact ⟨surroundings, placed, rest⟩
    refine ((hg.emit hi₁).imp ?_).after grown
    rintro ⟨m, hm, mute⟩
    exact .passes hn rfl hm mute
  | structType | remap | custom => trivial
  | context | conditional | loop => cases plain
  | varying => cases hv
  | _ => cases hb

/-! ### Places -/

/-- The node of a key is assigned to, after the steps that it asked for. -/
theorem place_asks {step : Build α} (hi : (Asking.generating p).inv env s) (hm : p.resolve c = .ok id)
    (hn : p.node id = .ok n) (place : n.isPlace = true)
    (h : (Asking.generating p).Asks env (p.keysOf (some env.stage) n.children) step) :
    Meets step env s (fun _ => True) fun _ s' => s.Asks p (p.keysOf (some env.stage) [c]) s' := by
  have operands : p.operandsAt ⟨.root, id, some env.stage⟩ = p.keysOf (some env.stage) n.children := by
    rw [Plan.operandsAt_of_node hn]
    cases n <;> first | rfl | cases place
  rw [Plan.keysOf_singleton hm]
  refine (h s hi).imp fun _ s' hr => ?_
  rw [← operands] at hr
  exact hr.place ⟨n, hn, place⟩

/-- The base of an index asks for the node that is indexed. -/
theorem placeBase_asks (hg : Generating p g) (c : NodeId) :
    (Asking.generating p).Asks env (p.keysOf (some env.stage) [c]) (placeBase g c) := by
  intro s hi
  obtain rfl := hi.1.1.1
  refine Asking.Asks.resolve (fun m hm => .node fun n hn s hi => ?_) s hi
  cases n with
  | storageBuffer name element count access =>
    refine place_asks hi hm hn rfl (.of_keeps ?_)
    exact .bufferPlace generating_straight.toPlain name element count access
  | _ => exact Asking.Asks.map (A := Asking.generating env.plan) Prod.fst hg.place s hi

/-- A place asks for the node that is assigned to. -/
theorem buildPlace_asks (hg : Generating p g) (c : NodeId) :
    (Asking.generating p).Asks env (p.keysOf (some env.stage) [c]) (buildPlace g c) := by
  intro s hi
  obtain rfl := hi.1.1.1
  refine Asking.Asks.resolve (fun m hm => .located (.node fun n hn => ?_)) s hi
  refine .after (typeOf_silent m) fun type => .before (fun s hi => ?_) fun e => .pure _
  -- what has a name of its own is emitted
  have own : (Asking.generating env.plan).Asks env (env.plan.keysOf (some env.stage) [c])
      (ownPlace g m type) := by
    have same : env.plan.keysOf (some env.stage) [c] = env.plan.keysOf (some env.stage) [m] := by
      rw [Plan.keysOf_singleton hm, Plan.keysOf_singleton (Plan.resolve_of_resolve hm)]
    rw [same]
    refine .before (hg.emits m) fun e => ?_
    cases e with
    | some e => exact .pure e
    | none => exact .fail rfl
  cases n with
  | var value name readOnly =>
    cases readOnly with
    | true => trivial
    | false => exact own s hi
  | property name type => exact own s hi
  | member base name =>
    exact place_asks hi hm hn rfl (.before hg.place fun e => .pure _)
  | index base i =>
    refine place_asks hi hm hn rfl ?_
    show (Asking.generating env.plan).Asks env (env.plan.keysOf (some env.stage) [base, i]) _
    rw [Plan.keysOf_cons]
    refine .bind (placeBase_asks hg base) fun e => .before (buildElement_asks hg _ base i) fun e => ?_
    cases e with
    | some e => exact .pure e
    | none => exact .fail rfl
  | split base components =>
    refine place_asks hi hm hn rfl ?_
    have rest : (Asking.generating env.plan).Asks env (env.plan.keysOf (some env.stage) [base])
        (swizzlePlace g base components) :=
      .before hg.place fun e => .bind (.ofExcept fun _ _ => rfl) fun cs => .pure _
    refine .after .dialect fun d => .ite (fun _ => ?_) fun _ => rest
    exact .after .dialect fun d => .after (.fail rfl) fun _ => rest
  | _ => trivial

end Build

end ShaderGraph
