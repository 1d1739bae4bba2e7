import ShaderGraph.Proofs.Conversions
import ShaderGraph.Proofs.Generation
import ShaderGraph.Proofs.Walk

/-!
# Where native functions are called

The code of a node never calls a native function: the result of a call is bound to a name at once,
and what the call is read by refers to that name (`generator_silent`). So a call stands only where
the name of its result is declared, or as a statement of its own.

What a node puts into statements calls no native function, unless the node is a call itself. So a law
is kept by the whole generation when it is kept by the statements that call nothing
(`Law.Callfree`), by varyings and by calls (`Callfree.generateNode`).
-/

namespace ShaderGraph

namespace Expr

mutual

/-- The native functions that an expression calls. -/
def callees : Expr → List String
  | literal .. | reference _ => []
  | construct _ args | math _ args => calleesIn args
  | operator _ left right | remainder left right => left.callees ++ right.callees
  | unary _ e | swizzle e _ | member e _ | address e => e.callees
  | call function args => function :: calleesIn args
  | select condition whenTrue whenFalse =>
    condition.callees ++ (whenTrue.callees ++ whenFalse.callees)
  | sample _ _ uv level => uv.callees ++ optionCallees level
  | index base i => base.callees ++ i.callees

/-- The native functions that some expressions call. -/
def calleesIn : List Expr → List String
  | [] => []
  | e :: rest => e.callees ++ calleesIn rest

/-- The native functions that an expression calls, if there is one. -/
def optionCallees : Option Expr → List String
  | none => []
  | some e => e.callees

end

/-- The expression calls no native function. -/
def Silent (e : Expr) : Prop := e.callees = []

/-- None of the expressions calls a native function. -/
def AllSilent (es : List Expr) : Prop := ∀ e ∈ es, e.Silent

theorem calleesIn_eq_nil {es : List Expr} : calleesIn es = [] ↔ AllSilent es := by
  induction es with
  | nil => simp [calleesIn, AllSilent]
  | cons e rest ih =>
    rw [calleesIn, List.append_eq_nil_iff, ih]
    exact (List.forall_mem_cons (p := Silent)).symm

theorem silent_literal (kind : ScalarKind) (value : Float) : (literal kind value).Silent :=
  rfl

theorem silent_reference (r : Reference) : (reference r).Silent := rfl

theorem Silent.construct {type : ValueType} {args : List Expr} (h : AllSilent args) :
    (Expr.construct type args).Silent := calleesIn_eq_nil.2 h

theorem Silent.math {m : MathMethod} {args : List Expr} (h : AllSilent args) :
    (Expr.math m args).Silent := calleesIn_eq_nil.2 h

section

variable {e e' : Expr} (h : e.Silent)

include h

theorem Silent.unary {op : UnaryOp} : (Expr.unary op e).Silent := h

theorem Silent.swizzle {cs : List Component} : (Expr.swizzle e cs).Silent := h

theorem Silent.member {name : String} : (Expr.member e name).Silent := h

theorem Silent.operator {op : BinaryOp} (h' : e'.Silent) : (Expr.operator op e e').Silent :=
  List.append_eq_nil_iff.2 ⟨h, h'⟩

theorem Silent.remainder (h' : e'.Silent) : (Expr.remainder e e').Silent :=
  List.append_eq_nil_iff.2 ⟨h, h'⟩

theorem Silent.index (h' : e'.Silent) : (Expr.index e e').Silent :=
  List.append_eq_nil_iff.2 ⟨h, h'⟩

theorem Silent.select {e'' : Expr} (h' : e'.Silent) (h'' : e''.Silent) :
    (Expr.select e e' e'').Silent :=
  List.append_eq_nil_iff.2 ⟨h, List.append_eq_nil_iff.2 ⟨h', h''⟩⟩

theorem Silent.sample {texture sampler : String} {level : Option Expr}
    (h' : ∀ l ∈ level, l.Silent) : (Expr.sample texture sampler e level).Silent := by
  have rest : optionCallees level = [] := by
    cases level with
    | none => rfl
    | some l => exact h' l rfl
  exact List.append_eq_nil_iff.2 ⟨h, rest⟩

theorem Silent.address : (Expr.address e).Silent := h

theorem Silent.coerce {source target : ValueType} (hc : e.coerce source target = .ok e') :
    e'.Silent :=
  coerce_induction (fun _ _ _ => .construct) h hc

theorem Silent.convert {source target : ValueType} (hc : e.convert source target = .ok e') :
    e'.Silent :=
  convert_induction (fun _ _ _ => .construct) (fun _ _ h => h.swizzle) silent_literal h hc

end

end Expr

/-- The native functions that a statement itself calls. -/
def Statement.callees : Statement → List String
  | declare _ _ init _ _ => Expr.optionCallees init
  | assign place value | update place _ value => place.callees ++ value.callees
  | call function args => function :: Expr.calleesIn args
  | jump _ => []
  | branch condition _ _ => condition.callees
  | loop _ _ start _ stop _ _ => start.callees ++ stop.callees

namespace Build

variable {α β : Type}

/-! ### What steps return -/

theorem Returns.after {P : α → Prop} {Q : β → Prop} {step : Build α} {next : α → Build β}
    (h : Returns P step) (hn : ∀ a, P a → Returns Q (next a)) : Returns Q (step >>= next) := by
  intro env s
  rw [meets_bind]
  exact (h env s).imp fun a s' ha => hn a ha env s'

theorem Returns.map {P : α → Prop} {Q : β → Prop} {f : α → β} {step : Build α}
    (h : Returns P step) (hf : ∀ a, P a → Q (f a)) : Returns Q (f <$> step) := by
  intro env s
  rw [meets_map]
  exact (h env s).imp fun a _ ha => hf a ha

theorem Returns.located {P : α → Prop} {id : NodeId} {step : Build α} (h : Returns P step) :
    Returns P (Build.located id step) :=
  fun env s => (h env s).located fun _ _ => trivial

theorem Returns.withReader {P : α → Prop} {f : Env → Env} {step : Build α} (h : Returns P step) :
    Returns P (MonadWithReader.withReader f step) :=
  fun env s => h (f env) s

theorem Returns.mapM {P : β → Prop} {f : α → Build β} {xs : List α}
    (h : ∀ x ∈ xs, Returns P (f x)) : Returns (fun ys => ∀ y ∈ ys, P y) (xs.mapM f) := by
  induction xs with
  | nil =>
    rw [List.mapM_nil]
    exact .pure fun _ hy => nomatch hy
  | cons x rest ih =>
    rw [List.mapM_cons]
    refine .after (h x (.head _)) fun y hy => ?_
    refine .after (ih fun x' hx' => h x' (.tail _ hx')) fun ys hys => .pure ?_
    exact List.forall_mem_cons.2 ⟨hy, hys⟩

theorem Returns.ofExcept {ε : Type} [Coe ε Cause] {r : Except ε α} {P : α → Prop}
    (h : ∀ a, r = .ok a → P a) : Returns P (Build.ofExcept r) := by
  cases r with
  | ok a => exact .pure (h a rfl)
  | error e => exact .fail _

/-- The code, if there is any, calls no native function. -/
def SilentCode (code : Option Expr) : Prop := ∀ e ∈ code, e.Silent

theorem silentCode_none : SilentCode none := fun _ h => nomatch h

theorem silentCode_some {e : Expr} (h : e.Silent) : SilentCode (some e) :=
  fun _ he => Option.some.inj he ▸ h

theorem SilentCode.callees {code : Option Expr} (h : SilentCode code) :
    Expr.optionCallees code = [] := by
  cases code with
  | none => rfl
  | some e => exact h e rfl

theorem SilentCode.map {code : Option Expr} (h : SilentCode code) {f : Expr → Expr}
    (hf : ∀ e, e.Silent → (f e).Silent) : SilentCode (code.map f) := by
  intro e he
  obtain ⟨e', he', rfl⟩ := Option.map_eq_some_iff.1 he
  exact hf e' (h e' he')

end Build

namespace Statement

theorem declare_callees {name : String} {type : ValueType} {init : Option Expr} {m : Mutability}
    {owner : Option CacheKey} (h : Build.SilentCode init) :
    (declare name type init m owner).callees = [] := h.callees

theorem assign_callees {place value : Expr} (hp : place.Silent) (hv : value.Silent) :
    (assign place value).callees = [] := by
  rw [callees, hp, hv, List.append_nil]

theorem update_callees {place value : Expr} {op : BinaryOp} (hp : place.Silent)
    (hv : value.Silent) : (update place op value).callees = [] := by
  rw [callees, hp, hv, List.append_nil]

theorem loop_callees {counter : String} {type : ValueType} {start stop : Expr}
    {condition : BinaryOp} {step : Float} {body : List Statement} (hs : start.Silent)
    (ht : stop.Silent) : (loop counter type start condition stop step body).callees = [] := by
  rw [callees, hs, ht, List.append_nil]

/-- A call of a native function with arguments that call none. -/
theorem call_callees {function : String} {args : List Expr} (h : Expr.AllSilent args) :
    (call function args).callees = [function] := by
  rw [callees, Expr.calleesIn_eq_nil.2 h]

/-- The declaration of the result of a call. -/
theorem declare_call_callees {name function : String} {type : ValueType} {args : List Expr}
    {m : Mutability} {owner : Option CacheKey} (h : Expr.AllSilent args) :
    (declare name type (some (.call function args)) m owner).callees = [function] := by
  rw [callees, Expr.optionCallees, Expr.callees, Expr.calleesIn_eq_nil.2 h]

end Statement

open Build

/-- What a generator makes calls no native function. -/
structure Generator.Silent (g : Generator) : Prop where
  emit : ∀ id, Returns SilentCode (g.emit id)
  place : ∀ id, Returns (fun r => r.1.Silent) (g.place id)

namespace Build

theorem silent_local (name : String) : (localName name).Silent := Expr.silent_reference _

variable {g : Generator} {id : NodeId}

/-! ### Inputs -/

theorem constant_silent (type : ValueType) (values : List Float) :
    Returns Expr.Silent (buildConstant type values) := by
  have literals : Expr.AllSilent
      ((constantComponents type values).map (Expr.literal (type.scalarKind.getD .float))) := by
    intro e he
    obtain ⟨v, -, rfl⟩ := List.mem_map.1 he
    exact Expr.silent_literal _ _
  refine .bind fun _ => .ite (.pure ?_) (.bind fun _ => .pure (.construct literals))
  cases hl : (constantComponents type values).map (Expr.literal (type.scalarKind.getD .float)) with
  | nil => exact Expr.silent_literal _ _
  | cons e rest => exact literals e (hl ▸ .head _)

theorem property_silent (name : String) (type : ValueType) :
    Returns Expr.Silent (buildProperty name type) := by
  refine .bind fun b => ?_
  split
  · exact .when fun _ => .pure (silent_local _)
  · exact .bind fun _ => .bind fun _ => .bind fun _ => .pure (silent_local _)

theorem uniform_silent (group : String) (u : UniformEntry) :
    Returns Expr.Silent (useUniform group u) := by
  refine .bind fun g => .ite (.bind fun _ => .bind fun _ => .bind fun _ => .pure ?_)
    (.bind fun _ => .pure ?_)
  · exact Expr.silent_reference _
  · exact Expr.silent_reference _

theorem attribute_silent (name : String) (type : Option ValueType) :
    Returns Expr.Silent (buildAttribute name type) := by
  have reference : ∀ a : AttributeEntry, (Expr.reference (.meshAttribute a.name)).Silent :=
    fun _ => Expr.silent_reference _
  refine .bind fun t => .when fun _ => .bind fun a => ?_
  exact .ite (.bind fun _ => .bind fun _ => .pure (reference a)) (.bind fun _ => .pure (reference a))

theorem builtin_silent (b : Builtin) : Returns Expr.Silent (useBuiltin b) :=
  .bind fun _ => .when fun _ => .bind fun _ => .pure (Expr.silent_reference _)

theorem useStorage_silent (name : String) (b : StorageEntry) :
    Returns Expr.Silent (useStorage name b) := by
  have declare : Returns Expr.Silent (do
      markType b.element
      modifyHere fun h => { h with storage := appendNew h.storage name }
      return .reference (.storage b.name)) :=
    .bind fun _ => .bind fun _ => .pure (Expr.silent_reference _)
  exact .ite (.bind fun _ => .bind fun _ => declare) declare

theorem counter_silent (loop : NodeId) (param : Nat) :
    Returns Expr.Silent (buildCounter loop param) := by
  refine .bind fun m => .bind fun env => ?_
  split
  · exact .pure (silent_local _)
  · exact .fail _

/-! ### Values -/

theorem buildTemp_silent {step : Build (Option Expr)} (h : Returns SilentCode step) :
    Returns SilentCode (buildTemp id step) := by
  refine .bind fun bound => ?_
  split
  · exact .pure (silentCode_some (silent_local _))
  · refine .after h fun code hc => .bind fun type => ?_
    split
    · exact .pure silentCode_none
    · next e =>
      refine .bind fun count => .ite (.pure hc) (.bind fun name => .bind fun _ => .pure ?_)
      exact silentCode_some (silent_local name)

section

variable (hg : g.Silent)

include hg

theorem value_silent (id : NodeId) (target : ValueType) :
    Returns Expr.Silent (g.value id target) := by
  refine .bind fun m => .located (.after (hg.emit m) fun code hc => .bind fun type => ?_)
  split
  · next e => exact .when fun _ => .ofExcept fun e' he => (hc e rfl).coerce he
  · exact .fail _

theorem values_silent (ids : List (NodeId × ValueType)) :
    Returns Expr.AllSilent (g.values ids) :=
  .mapM fun v _ => value_silent hg v.1 v.2

omit hg in
theorem varying_silent (source : NodeId) (name : Option String) (interpolation : Interpolation)
    (sampling : Option Sampling) :
    Returns Expr.Silent (buildVarying g id source name interpolation sampling) := by
  refine .bind fun t => .when fun _ => .bind fun v => .bind fun _ => .when fun _ => .pure ?_
  exact Expr.silent_reference _

theorem texture_silent (name : String) (uv : NodeId) (level : Option NodeId) :
    Returns Expr.Silent (buildTexture g name uv level) := by
  have chosen : Returns SilentCode (buildLevel g level) := by
    cases level with
    | none =>
      refine .bind fun t => .pure ?_
      split
      · exact silentCode_none
      · exact silentCode_some (Expr.silent_literal _ _)
    | some level => exact .after (value_silent hg level .float) fun e he => .pure (silentCode_some he)
  refine .after (value_silent hg uv .vec2) fun uv huv => .after chosen fun level hl => ?_
  exact .bind fun t => .pure (huv.sample hl)

theorem operator_silent (op : BinaryOp) (left right : NodeId) :
    Returns Expr.Silent (buildOperator g op left right) := by
  refine .bind fun l => .bind fun r => .bind fun result => ?_
  refine .after (value_silent hg left _) fun e he => .after (value_silent hg right _) fun e' he' => ?_
  exact .ite (.pure (he.remainder he')) (.pure (he.operator he'))

theorem unary_silent (op : UnaryOp) (operand : NodeId) :
    Returns SilentCode (buildUnary g op operand) := by
  refine .bind fun t => .bind fun _ => .after (hg.emit operand) fun code hc => .pure ?_
  exact hc.map fun e he => he.unary

theorem math_silent (m : MathMethod) (args : List NodeId) :
    Returns Expr.Silent (buildMath g id m args) := by
  refine .bind fun t => .when fun _ => .bind fun result => .bind fun types => .bind fun targets => ?_
  exact .after (values_silent hg _) fun es hes => .pure (.math hes)

theorem split_silent (source : NodeId) (components : String) :
    Returns SilentCode (buildSplit g source components) := by
  refine .bind fun t => .bind fun _ => .bind fun cs => .after (hg.emit source) fun code hc => ?_
  exact .pure (hc.map fun e he => he.swizzle)

theorem join_silent (parts : List NodeId) : Returns Expr.Silent (buildJoin g id parts) := by
  refine .bind fun type => .after (.mapM fun part _ => ?_) fun es hes => .bind fun _ =>
    .pure (.construct hes)
  exact .bind fun t => value_silent hg part _

theorem convert_silent (source : NodeId) (target : ValueType) :
    Returns SilentCode (buildConvert g source target) := by
  refine .bind fun type => .after (hg.emit source) fun code hc => ?_
  split
  · next e =>
    refine .after (.ofExcept fun e' he => (hc e rfl).convert he) fun e' he => .pure ?_
    exact silentCode_some he
  · exact .when fun _ => .pure silentCode_none

theorem struct_silent (values : List NodeId) : Returns Expr.Silent (buildStruct g id values) := by
  refine .bind fun type => .bind fun members => .when fun _ => ?_
  exact .after (values_silent hg _) fun es hes => .bind fun _ => .pure (.construct hes)

theorem array_silent (element : ValueType) (values : List NodeId) :
    Returns Expr.Silent (buildArray g element values) := by
  refine .bind fun type => .after (values_silent hg _) fun es hes => .bind fun _ => ?_
  exact .pure (.construct hes)

theorem member_silent (base : NodeId) (name : String) :
    Returns SilentCode (buildMember g base name) := by
  refine .bind fun type => .bind fun _ => .after (hg.emit base) fun code hc => .pure ?_
  exact hc.map fun e he => he.member

theorem element_silent {base : Option Expr} (hb : SilentCode base) (source i : NodeId) :
    Returns SilentCode (buildElement g base source i) := by
  refine .bind fun type => .bind fun index => .bind fun _ => .bind fun _ => ?_
  exact .after (value_silent hg i index) fun e he => .pure (hb.map fun b hb => hb.index he)

theorem index_silent (base i : NodeId) : Returns SilentCode (buildIndex g base i) :=
  .after (hg.emit base) fun _ hc => element_silent hg hc base i

theorem computation_silent {n : Node} {step : Build (Option Expr)}
    (h : Law.computation? g id n = some step) : Returns SilentCode step := by
  have made : ∀ {step : Build Expr}, Returns Expr.Silent step →
      Returns SilentCode (some <$> step) := fun h => h.map fun _ => silentCode_some
  cases n with
  | texture name uv level =>
    cases h
    exact made (texture_silent hg name uv level)
  | operator op left right =>
    cases h
    exact made (operator_silent hg op left right)
  | unary op operand =>
    cases h
    exact unary_silent hg op operand
  | math method args =>
    cases h
    exact made (math_silent hg method args)
  | join parts type =>
    cases h
    exact made (join_silent hg parts)
  | convert source target =>
    cases h
    exact convert_silent hg source target
  | struct layout values =>
    cases h
    exact made (struct_silent hg values)
  | array element values =>
    cases h
    exact made (array_silent hg element values)
  | _ => cases h

end

/-! ### Places, control flow and calls -/

section

variable (hg : g.Silent)

include hg

theorem placeBase_silent (base : NodeId) : Returns Expr.Silent (placeBase g base) := by
  refine .bind fun m => .bind fun n => ?_
  split
  · exact .bind fun b => .after (useStorage_silent _ b) fun e he => .when fun _ => .pure he
  · exact .after (hg.place base) fun r hr => .pure hr

theorem place_silent (id : NodeId) (type : ValueType) (n : Node) :
    Returns Expr.Silent (placeOf g id type n) := by
  have own : Returns Expr.Silent (ownPlace g id type) := by
    refine .after (hg.emit id) fun code hc => ?_
    cases code with
    | some e => exact .pure (hc e rfl)
    | none => exact .fail _
  unfold placeOf
  split
  · exact .fail _
  · exact own
  · exact own
  · exact .after (hg.place _) fun r hr => .pure hr.member
  · refine .after (placeBase_silent hg _) fun base hb =>
      .after (element_silent hg (silentCode_some hb) _ _) fun code hc => ?_
    cases code with
    | some e => exact .pure (hc e rfl)
    | none => exact .fail _
  · next base components =>
    have rest : Returns Expr.Silent (swizzlePlace g base components) :=
      .after (hg.place base) fun r hr => .bind fun cs => .pure hr.swizzle
    exact .bind fun d => .ite (.bind fun _ => .bind fun _ => rest) rest
  · exact .fail _

theorem buildPlace_silent (id : NodeId) : Returns (fun r => r.1.Silent) (buildPlace g id) :=
  .bind fun m => .located <| .bind fun n => .bind fun type =>
    .after (place_silent hg m type n) fun _ he => .pure he

omit hg in
theorem variable_silent (value : NodeId) (name : Option String) (readOnly : Bool) :
    Returns Expr.Silent (buildVariable g id value name readOnly) := by
  refine .bind fun bound => ?_
  split
  · exact .pure (silent_local _)
  · exact .bind fun v => .bind fun _ => .pure (silent_local _)

theorem conditional_silent (condition thenNode : NodeId) (elseNode : Option NodeId) :
    Returns SilentCode (buildConditional g id condition thenNode elseNode) := by
  refine .bind fun bound => ?_
  split
  · exact .pure (silentCode_some (silent_local _))
  refine .bind fun type => .after (value_silent hg condition .bool) fun c hc => ?_
  cases elseNode with
  | none => exact .bind fun t => .bind fun _ => .pure silentCode_none
  | some elseNode =>
    refine .ite (.bind fun t => .bind fun e => .bind fun _ => .pure silentCode_none) ?_
    refine .bind fun pure => .ite (buildTemp_silent ?_) ?_
    · exact .after (value_silent hg thenNode type) fun t ht =>
        .after (value_silent hg elseNode type) fun e he =>
          .pure (silentCode_some (hc.select ht he))
    · exact .bind fun result => .bind fun t => .bind fun e => .bind fun _ => .bind fun _ =>
        .pure (silentCode_some (silent_local _))

theorem stack_silent (nodes : List NodeId) (output : Option NodeId) :
    Returns SilentCode (buildStack g nodes output) := by
  refine .bind fun _ => ?_
  cases output with
  | some output => exact hg.emit output
  | none => exact .pure silentCode_none

theorem argument_silent (function : String) (arg : NodeId) (p : Native.Parameter) :
    Returns Expr.Silent (buildArgument g function arg p) := by
  refine .ite (.after (hg.place arg) fun r hr => ?_) (value_silent hg arg p.valueType)
  exact .when fun _ => .pure hr.address

omit hg in
/-- The result of a call is read by its name. -/
theorem call_silent (function : FunctionId) (args : List NodeId) :
    Returns SilentCode (buildCall g id function args) := by
  refine .bind fun bound => ?_
  split
  · exact .pure (silentCode_some (silent_local _))
  refine .bind fun f => .when fun _ => .bind fun _ => .bind fun values => ?_
  refine .ite (.bind fun _ => .pure silentCode_none) (.bind fun name => .bind fun _ => .pure ?_)
  exact silentCode_some (silent_local name)

/-! ### All nodes -/

/-- The code of a node calls nothing when that of the nodes below does not. -/
theorem generateNode_silent (n : Node) : Returns SilentCode (generateNode g id n) := by
  have made : ∀ {step : Build Expr}, Returns Expr.Silent step →
      Returns SilentCode (some <$> step) := fun h => h.map fun _ => silentCode_some
  have none : ∀ {step : Build Unit}, Returns SilentCode (withoutValue step) :=
    .bind fun _ => .pure silentCode_none
  cases hc : Law.computation? g id n with
  | some step =>
    rw [Law.generateNode_computation hc]
    exact buildTemp_silent (computation_silent hg hc)
  | none =>
    cases n with
    | const type values => exact made (constant_silent type values)
    | uniform name type group update value => exact .bind fun u => made (uniform_silent u.1 u.2)
    | meshAttribute name type => exact made (attribute_silent name type)
    | varying source name interpolation sampling =>
      exact made (varying_silent source name interpolation sampling)
    | property name type => exact made (property_silent name type)
    | builtin b => exact made (builtin_silent b)
    | storageBuffer name element count access =>
      exact made (.bind fun b => useStorage_silent name b)
    | var value name readOnly => exact made (variable_silent value name readOnly)
    | assign | loop | jump => exact none
    | split source components => exact split_silent hg source components
    | conditional condition thenNode elseNode =>
      exact conditional_silent hg condition thenNode elseNode
    | loopIndex loop param => exact made (counter_silent loop param)
    | stack nodes output => exact stack_silent hg nodes output
    | structType => exact .fail _
    | member base name => exact member_silent hg base name
    | index base i => exact index_silent hg base i
    | context inner values =>
      exact .bind fun _ => .bind fun _ => .withReader (hg.emit inner)
    | contextValue key fallback =>
      refine .bind fun env => ?_
      split
      · exact .withReader (hg.emit _)
      · split
        · exact hg.emit _
        · exact .fail _
    | cache inner shares => exact .bind fun scope => .withReader (hg.emit inner)
    | call function args => exact call_silent function args
    | remap | custom => exact .fail _
    | _ => cases hc

end

/-- The code that a generator makes of nodes calls no native function. -/
theorem generator_silent (fuel : Nat) : (generator fuel).Silent := by
  induction fuel with
  | zero => exact ⟨fun _ _ _ => trivial, fun _ _ _ => trivial⟩
  | succ fuel ih =>
    refine ⟨fun id => ?_, fun id => buildPlace_silent ih id⟩
    refine .bind fun m => .bind fun s => .after (.located (.bind fun n => ?_)) fun code hc =>
      .bind fun _ => .pure hc
    exact generateNode_silent ih n

end Build

/-! ## The walk apart from calls -/

open Build

/-- A law that is kept by what happens at single nodes where no native function is called. -/
structure Law.Callfree (L : Law) : Prop extends L.Plain where
  claimLocal : ∀ {env} name, L.Yields env (claimLocal name) L.names
  releaseLocal : ∀ {env} name, L.Keeps env (releaseLocal name)
  claimTemp : ∀ {env}, L.Yields env claimTemp L.names
  bindValue : ∀ {env id n} name, env.plan.node id = .ok n → n.isSpecial = false →
    L.Keeps env (bindValue id name)
  /-- A statement that calls nothing itself goes to the open block, with the blocks it holds. -/
  add : ∀ {env s s' st}, L.inv env s → L.Allows st → st.callees = [] → L.rel st.blocks s s' →
    Meets (addStatement st) env s' L.ends fun _ s'' => L.rel [] s s''
  inBlock : ∀ {env step}, L.Keeps env step → L.Leaves env (inBlock step)

/-- A law about what finding types leaves alone is kept where nothing is called, if it is by what
binds values and adds statements. -/
theorem Build.callfree_ofStill {L : Law} (h : L.Unmoved)
    (bind : ∀ env id name, L.Keeps env (bindValue id name))
    (add : ∀ {env s s' st}, L.inv env s → L.Allows st → st.callees = [] → L.rel st.blocks s s' →
      Meets (addStatement st) env s' L.ends fun _ s'' => L.rel [] s s'')
    (inBlock : ∀ {env step}, L.Keeps env step → L.Leaves env (inBlock step)) : L.Callfree where
  toPlain := h.tabular.plain
  claimLocal _ := .ofKeeps (h.tabular.keeps fun _ => claimLocal_tables _) h.names
  releaseLocal _ := h.tabular.keeps fun _ => releaseLocal_tables _
  claimTemp := .ofKeeps (h.tabular.keeps fun _ => claimTemp_tables) h.names
  bindValue name _ _ := bind _ _ name
  add := add
  inBlock := inBlock

namespace Law

variable {L : Law} {env : Env} {g : Generator} {id : NodeId} {n : Node} {α : Type}

/-- What a step returns in any state it returns where a law is kept. -/
theorem Keeps.yields {step : Build α} {P : α → Prop} (h : L.Keeps env step) (hp : Returns P step) :
    L.Yields env step P := fun s hs => (h s hs).and (hp env s)

namespace Callfree

variable (hL : L.Callfree)

include hL

theorem addPlain {st : Statement} (ha : L.Allows st) (hc : st.callees = []) (hb : st.blocks = []) :
    L.Keeps env (addStatement st) :=
  fun s hs => hL.add hs ha hc (hb ▸ L.refl s)

theorem declareTemp {type : ValueType} {init : Option Expr} {m : Mutability}
    (hi : SilentCode init) : L.Keeps env (declareTemp type init m) := by
  refine .bind (hL.useType type) fun _ => .using hL.claimTemp fun name hn => ?_
  exact .bind (hL.addPlain (.declare hn) (Statement.declare_callees hi) rfl) fun _ => .pure _

/-- A value that may get a name. -/
theorem buildTemp (hn : env.plan.node id = .ok n) (hs : n.isSpecial = false)
    (ht : L.Keeps env (typeOf id)) {step : Build (Option Expr)} (h : L.Keeps env step)
    (hc : Returns SilentCode step) : L.Keeps env (buildTemp id step) := by
  refine .bind (.boundName? id) fun bound => ?_
  split
  · exact .pure _
  · refine .using (h.yields hc) fun e he => .bind ht fun type => ?_
    split
    · exact .pure _
    · refine .bind (.usage id) fun count => .ite (fun _ => .pure _) fun _ => ?_
      refine .bind (hL.declareTemp he) fun name => ?_
      exact .bind (hL.bindValue name hn hs) fun _ => .pure _

/-! ### Branches -/

/-- A statement that holds one block. -/
theorem hold {step : Build (List Statement)} {st : List Statement → Statement}
    {next : Unit → Build α} (h : L.Leaves env step) (ha : ∀ ss, L.Allows (st ss))
    (hc : ∀ ss, (st ss).callees = []) (hb : ∀ ss, (st ss).blocks = ss)
    (hn : ∀ u, L.Keeps env (next u)) :
    L.Keeps env (step >>= fun ss => addStatement (st ss) >>= next) := by
  intro s hs
  rw [meets_bind]
  refine (h s hs).imp fun ss s' hr => ?_
  rw [meets_bind]
  refine (hL.add hs (ha ss) (hc ss) ((hb ss).symm ▸ hr)).imp fun u s'' hr' => ?_
  exact (hn u s'' (L.mono hs hr')).imp fun _ _ hr'' => L.trans hr' hr''

/-- A branch of two blocks. -/
theorem holdBoth {condition : Expr} {t e : Build (List Statement)} {next : Unit → Build α}
    (hc : condition.Silent) (ht : L.Leaves env t) (he : L.Leaves env e)
    (hn : ∀ u, L.Keeps env (next u)) :
    L.Keeps env (t >>= fun t => e >>= fun e =>
      addStatement (.branch condition t (some e)) >>= next) := by
  intro s hs
  rw [meets_bind]
  refine (ht s hs).imp fun ss s' hr => ?_
  rw [meets_bind]
  refine (he s' (L.mono hs hr)).imp fun ss' s'' hr' => ?_
  have hr'' : L.rel (Statement.branch condition ss (some ss')).blocks s s'' := L.trans hr hr'
  have hc' : (Statement.branch condition ss (some ss')).callees = [] := hc
  rw [meets_bind]
  refine (hL.add hs (.plain rfl rfl rfl) hc' hr'').imp fun u s₃ h₃ => ?_
  exact (hn u s₃ (L.mono hs h₃)).imp fun _ _ h₄ => L.trans h₃ h₄

variable (hg : g.Silent)

include hg

theorem buildBranch {result : String} {type : ValueType} (h : L.Serves env g id) :
    L.Leaves env (buildBranch g result type id) :=
  hL.inBlock <| .using ((h.value type).yields (value_silent hg id type)) fun _ he =>
    hL.addPlain (.assign (L.locals result)) (Statement.assign_callees (silent_local result) he) rfl

theorem buildChoice (hn : env.plan.node id = .ok n) (hs : n.isSpecial = false)
    (hi : L.Keeps env (typeOf id)) {type : ValueType} {condition : Expr} {thenNode elseNode : NodeId}
    (hc : condition.Silent) (ht : L.Serves env g thenNode) (he : L.Serves env g elseNode) :
    L.Keeps env (buildChoice g id type condition thenNode elseNode) := by
  refine .bind (.arePure _) fun pure => .ite (fun _ => ?_) fun _ => ?_
  · refine hL.buildTemp hn hs hi ?_ ?_
    · exact .bind (ht.value _) fun _ => .bind (he.value _) fun _ => .pure _
    · exact .after (value_silent hg thenNode type) fun t ht =>
        .after (value_silent hg elseNode type) fun e he =>
          .pure (silentCode_some (hc.select ht he))
  · refine .bind (hL.declareTemp silentCode_none) fun result => ?_
    refine hL.holdBoth hc (hL.buildBranch hg ht) (hL.buildBranch hg he) fun _ => ?_
    exact .bind (hL.bindValue result hn hs) fun _ => .pure _

theorem buildConditional (hn : env.plan.node id = .ok n) (hs : n.isSpecial = false)
    (hi : L.Keeps env (typeOf id)) {condition thenNode : NodeId} {elseNode : Option NodeId}
    (h : ∀ c ∈ condition :: thenNode :: elseNode.toList, L.Serves env g c) :
    L.Keeps env (buildConditional g id condition thenNode elseNode) := by
  have ht : L.Serves env g thenNode := h _ (.tail _ (.head _))
  refine .bind (.boundName? id) fun bound => ?_
  split
  · exact .pure _
  have value := (h condition (.head _)).value .bool
  refine .bind hi fun type => .using (value.yields (value_silent hg condition .bool)) fun c hc => ?_
  cases elseNode with
  | none =>
    refine hL.hold (hL.inBlock ht.statement) (fun _ => .plain rfl rfl rfl) (fun _ => hc)
      (fun ss => ?_) fun _ => .pure _
    exact List.append_nil ss
  | some elseNode =>
    have he : L.Serves env g elseNode := h _ (.tail _ (.tail _ (.head _)))
    refine .ite (fun _ => ?_) fun _ => hL.buildChoice hg hn hs hi hc ht he
    exact hL.holdBoth hc (hL.inBlock ht.statement) (hL.inBlock he.statement) fun _ => .pure _

/-! ### Loops and jumps -/

omit hL in
theorem bound_silent {type : ValueType} {kind : ScalarKind} (b : LoopBound NodeId) :
    Returns Expr.Silent (buildBound g type kind b) := by
  cases b with
  | value v => exact .pure (Expr.silent_literal kind v)
  | node c => exact value_silent hg c type

/-- The levels of a loop; the body is inside of all of them. -/
theorem buildLevels {body : Option NodeId} {level : Nat} {params : List (LoopParam NodeId)}
    {l : List ActiveLoop}
    (h : ∀ c ∈ params.flatMap LoopParam.children ++ body.toList, L.Serves env g c) :
    L.Keeps { env with loops := l } (buildLevels g id body level params) := by
  induction params generalizing level l with
  | nil =>
    cases body with
    | none => exact .pure _
    | some body => exact ((h body (.head _)).inLoops l).statement
  | cons p rest ih =>
    have bound : ∀ kind b, b = p.start ∨ b = p.stop →
        L.Yields { env with loops := l } (buildBound g p.type kind b) Expr.Silent := by
      refine fun kind b hb => Keeps.yields (.buildBound fun c hc => ?_) (bound_silent hg b)
      refine (h c ?_).inLoops l
      rw [List.flatMap_cons, LoopParam.children]
      rcases hb with rfl | rfl
      · simp [hc]
      · simp [hc]
    -- the levels further in see this loop; the law does not depend on the loops
    have inner : ∀ counter, L.Leaves { env with loops := l }
        (Build.inLoop ⟨id, level, counter⟩
          (Build.inBlock (Build.buildLevels g id body (level + 1) rest))) := by
      intro counter s hs
      refine hL.inBlock (ih fun c hc => h c ?_) s (@Law.loops L { env with loops := l } _ _ hs)
      rw [List.flatMap_cons, List.append_assoc]
      exact List.mem_append_right _ hc
    rw [Build.buildLevels]
    refine .bind (.ofExcept fun e he => rfl) fun kind => ?_
    refine .read (.using (hL.claimLocal _) fun counter hn => .bind (hL.useType _) fun _ => ?_)
    refine .using (bound _ _ (.inl rfl)) fun start hstart => ?_
    refine .using (bound _ _ (.inr rfl)) fun stop hstop => ?_
    intro s hs
    rw [meets_bind]
    refine (inner counter s hs).imp fun ss s' hr => ?_
    rw [meets_bind]
    refine (hL.releaseLocal counter s' (L.mono hs hr)).imp fun _ s'' hr' => ?_
    refine hL.add hs ⟨rfl, fun _ he => Option.some.inj he ▸ hn, by rintro _ ⟨⟩⟩
      (Statement.loop_callees hstart hstop) ?_
    exact List.append_nil ss ▸ L.trans hr hr'

theorem buildLoop {params : List (LoopParam NodeId)} {body : Option NodeId}
    (h : ∀ c ∈ params.flatMap LoopParam.children ++ body.toList, L.Serves env g c) :
    L.Keeps env (buildLoop g id params body) :=
  .when (fun _ => .fail rfl) fun _ => hL.buildLevels hg (l := env.loops) h

omit hg in
theorem buildJump (j : Jump) : L.Keeps env (buildJump j) :=
  .read (.when (fun _ => .fail rfl) fun _ => hL.addPlain (.plain rfl rfl rfl) rfl rfl)

/-! ### Variables and assignments -/

/-- A variable, where its declaration is taken for granted. -/
theorem buildVariable (ht : L.Keeps env (typeOf id)) {value : NodeId} {name : Option String}
    {readOnly : Bool} (hv : L.Serves env g value)
    (hd : ∀ name type init, L.names name → init.Silent →
      L.Keeps env (declareVariable id value readOnly name type init)) :
    L.Keeps env (buildVariable g id value name readOnly) := by
  have prepare : L.Yields env (prepareVariable g id value name) fun r =>
      r.2.1.Silent ∧ L.names r.2.2 := by
    have silent := fun type => (hv.value type).yields (value_silent hg value type)
    refine .after ht fun type => .bind (silent type) fun init hs => .after (hL.useType type) fun _ => ?_
    have named : ∀ {step : Build String}, L.Yields env step L.names →
        L.Yields env ((fun name => (type, init, name)) <$> step) fun r =>
          r.2.1.Silent ∧ L.names r.2.2 := fun h => h.map fun _ hn => ⟨hs, hn⟩
    cases name with
    | some name => exact named (hL.claimLocal name)
    | none => exact named hL.claimTemp
  refine .bind (.boundName? id) fun bound => ?_
  split
  · exact .pure _
  · exact .using prepare fun v hv => .bind (hd _ _ _ hv.2 hv.1) fun _ => .pure _

theorem buildAssign {target value : NodeId} {op : Option BinaryOp} (ht : L.Serves env g target)
    (hv : L.Serves env g value) : L.Keeps env (buildAssign g target value op) := by
  have place : L.Yields env (g.place target) fun r => L.places r.1 ∧ r.1.Silent :=
    fun s hs => ((ht.place' s hs).and (hg.place target env s)).imp fun _ _ h => ⟨h.1.1, h.1.2, h.2⟩
  have silent := fun type => (hv.value type).yields (value_silent hg value type)
  refine .using place fun r hr => ?_
  -- the statement assigns to the place, whichever form it has
  have assigns : ∀ {step : Build Statement},
      L.Yields env step (fun st => L.Allows st ∧ st.callees = [] ∧ st.blocks = []) →
        L.Keeps env (step >>= addStatement) := fun h =>
    .using h fun st hst => hL.addPlain hst.1 hst.2.1 hst.2.2
  cases op with
  | none =>
    refine assigns (.bind (silent _) fun e he => .pure ?_)
    exact ⟨.assign hr.1, Statement.assign_callees hr.2 he, rfl⟩
  | some op =>
    refine assigns (.after hv.type' fun t => .after (.ofExcept fun _ _ => rfl) fun result => ?_)
    refine .when (fun _ => .fail rfl) fun _ => .bind (silent _) fun e he => .ite (fun _ => ?_) fun _ => ?_
    · exact .pure ⟨.assign hr.1, Statement.assign_callees hr.2 (hr.2.remainder he), rfl⟩
    · exact .pure ⟨.update hr.1, Statement.update_callees hr.2 he, rfl⟩

/-! ### All nodes -/

/-- The code of a node that neither is a variable nor changes what the nodes below it see, where calls
are taken for granted. -/
theorem generateOrdinary (hn : env.plan.node id = .ok n) (hspecial : n.isSpecial = false)
    (type : L.Keeps env (typeOf id)) (serves : ∀ c, L.Serves env g c)
    (call : ∀ f args, n = .call f args → L.Keeps env (buildCall g id f args)) :
    L.Keeps env (generateNode g id n) := by
  cases hp : isImpure n with
  | false =>
    refine .generatePlain hL.toPlain hspecial hp (fun c _ => serves c) (fun step hc => ?_)
      fun _ _ _ he => ?_
    · refine hL.buildTemp hn hspecial type ?_ (computation_silent hg hc)
      exact .computation hL.toPlain type (fun c _ => serves c) hc
    · cases he
      exact hL.buildConditional hg hn hspecial type fun c _ => serves c
  | true =>
    cases n with
    | assign target value op => exact .withoutValue (hL.buildAssign hg (serves _) (serves _))
    | conditional condition thenNode elseNode =>
      exact hL.buildConditional hg hn hspecial type fun c _ => serves c
    | loop params body => exact .withoutValue (hL.buildLoop hg fun c _ => serves c)
    | jump j => exact .withoutValue (hL.buildJump j)
    | stack nodes output => exact .buildStack fun c _ => serves c
    | call f args => exact call f args rfl
    | var => cases hspecial
    | _ => cases hp

/-- The code of a node keeps to what the steps of the nodes below it keep to, where varyings, the
declarations of variables and calls are taken for granted. -/
theorem generateNode (hu : L.Unscoped) (hr : L.Runs g) (hn : env.plan.node id = .ok n)
    (varying : ∀ source name interpolation sampling,
      n = .varying source name interpolation sampling →
        L.Keeps env (buildVarying g id source name interpolation sampling))
    (declare : ∀ value readOnly name type init, L.names name → init.Silent →
      L.Keeps env (declareVariable id value readOnly name type init))
    (call : ∀ f args, n = .call f args → L.Keeps env (buildCall g id f args)) :
    L.Keeps env (generateNode g id n) := by
  have type : L.Keeps env (typeOf id) := typeOf_indifferent hu.toIndifferent id
  have serves : ∀ c, L.Serves env g c := fun c => hr.serves hu.toIndifferent
  refine hu.generateSpecial hr varying ?_ fun hs => hL.generateOrdinary hg hn hs type serves call
  rintro value name readOnly rfl
  exact hL.buildVariable hg type (serves value) (declare value readOnly)

end Callfree

end Law

end ShaderGraph
