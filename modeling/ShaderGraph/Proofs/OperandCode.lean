import ShaderGraph.Proofs.Conversions
import ShaderGraph.Proofs.Equated
import ShaderGraph.Proofs.Generation
import ShaderGraph.Proofs.Scopes
import ShaderGraph.Proofs.VariablesBuild
import ShaderGraph.Proofs.Wording

/-!
# Code of operands

In a graph that makes no struct values and takes no members of them, all code of nodes is plain:
what it refers to are words, as all names are that a build gives out, and it spells no struct
(`generator_plain`). So each text that a build makes of a node is one operand, as it is and
converted to any type (`run_operands`). To speak of all visits, those of builds that fail among
them, the generator is compared with one that checks what it makes.
-/

namespace ShaderGraph

open Build BuildState

/-- Whether a node makes no struct value and no array of them, and takes no member. -/
def NodeOf.isStructless : Node → Bool
  | .struct .. | .member .. => false
  | .array element _ => element.heldStruct?.isNone
  | _ => true

/-- The nodes make no struct values and take no members. -/
def Plan.Structless (p : Plan) : Prop := ∀ id n, p.node id = .ok n → n.isStructless = true

/-- The counters of the loops around a node are words. -/
def Env.Worded (env : Env) : Prop := ∀ l ∈ env.loops, Name.IsWord l.counter

theorem Env.Worded.inside {env : Env} (h : env.Worded) {l : ActiveLoop}
    (hl : Name.IsWord l.counter) : Env.Worded { env with loops := l :: env.loops } := fun l' h' =>
  (List.mem_cons.1 h').elim (fun same => same ▸ hl) (h l')

theorem Env.worded_root (p : Plan) (active : List Stage) (t : Stage) :
    (Env.root p active t).Worded := fun _ hl => nomatch hl

/-- What a generator makes of nodes is plain, and another one makes the same of them. -/
structure Generator.Plain (p : Plan) (g g' : Generator) : Prop where
  emit : ∀ {env} id, env.Worded →
    (Law.wording p).Equates env (g.emit id) (g'.emit id) fun e => ∀ x ∈ e, x.Plain
  place : ∀ {env} id, env.Worded →
    (Law.wording p).Equates env (g.place id) (g'.place id) fun r => r.1.Plain

/-! ### Conversions -/

theorem Expr.Plain.coerce {e e' : Expr} {source target : ValueType} (h : e.Plain)
    (he : e.coerce source target = .ok e') : e'.Plain :=
  coerce_induction (fun _ _ ht h => .construct ht h) h he

theorem Expr.Plain.convert {e e' : Expr} {source target : ValueType} (h : e.Plain)
    (he : e.convert source target = .ok e') : e'.Plain :=
  convert_induction (fun _ _ ht h => .construct ht h) (fun _ cs h => .swizzle h cs)
    (fun kind v => .literal kind v) h he

/-- What is made of a single expression. -/
theorem Expr.plain_map {e : Option Expr} {f : Expr → Expr} (h : ∀ x ∈ e, x.Plain)
    (hf : ∀ x : Expr, x.Plain → (f x).Plain) : ∀ x ∈ e.map f, x.Plain := by
  intro x hx
  obtain ⟨y, hy, rfl⟩ := Option.map_eq_some_iff.1 hx
  exact hf y (h y hy)

theorem Expr.plain_some {e : Expr} (h : e.Plain) : ∀ x ∈ some e, x.Plain :=
  fun _ hx => Option.some.inj hx ▸ h

/-- The text of an expression is one operand, and so is that of each implicit conversion of it: its
brackets match, what is no part of a name or a number stands inside of them, and where it is put
inside of other brackets it is passed over as a whole. -/
structure Expr.Embeds (d : Dialect) (e : Expr) : Prop where
  operand : d.Operand (e.text d).toList
  passes : Operand.Passes (e.text d).toList
  coerced : ∀ {source target e'}, e.coerce source target = .ok e' →
    d.Operand (e'.text d).toList ∧ Operand.Passes (e'.text d).toList

theorem Expr.Plain.embeds {d : Dialect} {e : Expr} (h : e.Plain) : e.Embeds d where
  operand := h.operand
  passes := h.operand.passes
  coerced he := ⟨(h.coerce he).operand, (h.coerce he).operand.passes⟩

namespace Build

open Law

variable {p : Plan} {env : Env} {s : BuildState} {g g' : Generator} {id : NodeId} {α : Type}

theorem plain_local {name : String} (h : Name.IsWord name) : (localName name).Plain := .reference h

/-! ### Statements and blocks -/

theorem declareTemp_wording (type : ValueType) (init : Option Expr) (m : Mutability) :
    (Law.wording p).Yields env (declareTemp type init m) Name.IsWord :=
  .after (useType_wording type) fun _ => .bind claimTemp_wording fun _ hn =>
    .after (addStatement_wording _) fun _ => .pure hn

theorem bindValue_wording {n : String} (h : Name.IsWord n) :
    (Law.wording p).Keeps env (bindValue id n) := .read (bindName_wording id h _)

theorem inBlock_wording {step step' : Build Unit} (h : (Law.wording p).Alike env step step') :
    (Law.wording p).Alike env (inBlock step) (inBlock step') :=
  .after (wording_modifyHere fun _ => rfl) fun _ => .bind h fun _ _ => .kept <| .bind .here fun _ =>
    .bind (wording_modifyHere fun _ => rfl) fun _ => .pure _

/-- What goes on in the vertex program sees the same loops, or none. -/
theorem inVertex_wording {step step' : Build Unit} (he : env.Worded)
    (h : ∀ {env}, env.Worded → (Law.wording p).Alike env step step') :
    (Law.wording p).Alike env (inStage .vertex step) (inStage .vertex step') := by
  have around : (within env .vertex).Worded ∧ (within env .vertex).plan = env.plan := by
    unfold within
    split
    · exact ⟨he, rfl⟩
    · exact ⟨(fun _ hl => nomatch hl), rfl⟩
  refine .seen (inStage_run _) (fun s hs => ⟨(Law.wording p).refl s, around.2.trans hs.1, hs.2⟩) ?_
  exact fun _ _ => h around.1

/-- A value that may be bound to a name. -/
theorem buildTemp_plain {step step' : Build (Option Expr)}
    (h : (Law.wording p).Equates env step step' fun e => ∀ x ∈ e, x.Plain) :
    (Law.wording p).Equates env (buildTemp id step) (buildTemp id step') fun e =>
      ∀ x ∈ e, x.Plain := by
  refine .following (boundName?_wording id) fun name hn => ?_
  cases name with
  | some name => exact .pure (Expr.plain_some (plain_local (hn name rfl)))
  | none =>
    refine .bind h fun e he => .after (typeOf_wording id) fun type => ?_
    cases e with
    | none => exact .pure fun _ hx => nomatch hx
    | some e =>
      refine .after (.usage id) fun count => .ite (fun _ => .pure he) fun _ => ?_
      refine .following (declareTemp_wording _ _ _) fun n hn => ?_
      exact .after (bindValue_wording hn) fun _ => .pure (Expr.plain_some (plain_local hn))

/-! ### Values -/

theorem constant_plain (type : ValueType) (values : List Float) :
    (Law.wording p).Yields env (buildConstant type values) Expr.Plain := by
  have literals : ∀ e ∈ (constantComponents type values).map
      (Expr.literal (type.scalarKind.getD .float)), e.Plain := by
    intro e he
    obtain ⟨v, -, rfl⟩ := List.mem_map.1 he
    exact .literal _ v
  have checked : (Law.wording p).Yields env (discard (ofExcept (constantType type values))) fun _ =>
      type.heldStruct? = none := by
    refine .map (.ofExcept (fun _ _ => rfl) fun t ht => ?_) fun _ h => h
    unfold constantType at ht
    split at ht
    · cases ht
    · next scalars =>
      obtain ⟨k, hk⟩ := Option.ne_none_iff_exists'.1 (Option.isNone_iff_eq_none.not.1 scalars)
      exact ValueType.heldStruct?_of_scalarKind hk
  refine .bind checked fun _ held => .ite (fun _ => .pure ?_) fun _ => ?_
  · let literal := Expr.literal (type.scalarKind.getD .float)
    cases hc : (constantComponents type values).map literal with
    | nil => exact .literal .float 0
    | cons e rest => exact literals e (hc ▸ .head _)
  · exact .after (useType_wording type) fun _ => .pure (.construct held literals)

theorem property_plain (name : String) (type : ValueType) :
    (Law.wording p).Yields env (buildProperty name type) Expr.Plain := by
  have declare : ∀ emitted, Name.IsWord emitted → (Law.wording p).Keeps env
      (modifyHere fun b => { b with
        locals := b.locals ++ [.declare emitted type none .mutable none]
        properties := b.properties.put name (type, emitted) }) := by
    refine fun emitted he s _ h => { h with properties := fun e name' q hq => ?_ }
    rw [PerStage.get_modify] at hq
    split at hq
    · exact @OrderedMap.forall_get?_put _ _ _ (fun q => Name.IsWord q.2) _ _ _ he
        (h.properties e) name' q hq
    · exact h.properties e name' q hq
  refine .here fun s hs => ?_
  split
  · next known emitted found =>
    exact .check rfl fun _ => .pure (plain_local (hs.2.properties env.stage name _ found))
  · refine .after (useType_wording type) fun _ => ?_
    refine .bind (claimLocal_wording name) fun emitted he => ?_
    exact .after (declare emitted he) fun _ => .pure (plain_local he)

theorem attribute_plain (name : String) (type : Option ValueType) :
    (Law.wording p).Yields env (buildAttribute name type) Expr.Plain :=
  .after .stage fun _ => .check rfl fun _ => useAttribute_wording name type

theorem storage_plain (name : String) (element : ValueType) (count : Option UInt32)
    (access : Access) :
    (Law.wording p).Yields env (buildStorage name element count access) Expr.Plain :=
  .bind (registerStorage_wording name element count access) fun _ hb => useStorage_wording name hb

theorem counter_plain (he : env.Worded) (loop : NodeId) (param : Nat) :
    (Law.wording p).Yields env (buildCounter loop param) Expr.Plain := by
  refine .resolve fun m _ => .read ?_
  split
  · next l found => exact .pure (plain_local (he l (List.mem_of_find?_eq_some found)))
  · exact .fail rfl

section

variable (hg : g.Plain p g') (he : env.Worded)

include hg he

theorem statement_wording (id : NodeId) :
    (Law.wording p).Alike env (g.statement id) (g'.statement id) := .discard (hg.emit id he)

/-- A value is what a node gives, brought to a type. -/
theorem value_plain (id : NodeId) (target : ValueType) :
    (Law.wording p).Equates env (g.value id target) (g'.value id target) Expr.Plain := by
  refine .resolve fun m _ => .located (.bind (hg.emit m he) fun e hx => ?_)
  refine .after (typeOf_wording m) fun type => ?_
  cases e with
  | none => exact .fail rfl
  | some e =>
    refine .check rfl fun _ => .own (.ofExcept (fun _ _ => rfl) fun e' h => ?_)
    exact (hx e rfl).coerce h

theorem values_plain (ids : List (NodeId × ValueType)) :
    (Law.wording p).Equates env (g.values ids) (g'.values ids) fun es => ∀ e ∈ es, e.Plain :=
  .all fun v _ => value_plain hg he v.1 v.2

theorem texture_plain (name : String) (uv : NodeId) (level : Option NodeId) :
    (Law.wording p).Equates env (buildTexture g name uv level) (buildTexture g' name uv level)
      Expr.Plain := by
  have level : (Law.wording p).Equates env (buildLevel g level) (buildLevel g' level) fun e =>
      ∀ x ∈ e, x.Plain := by
    cases level with
    | some level => exact .map (value_plain hg he level .float) fun _ h => Expr.plain_some h
    | none =>
      refine .after .stage fun t => .pure ?_
      split
      · exact fun _ hx => nomatch hx
      · exact Expr.plain_some (.literal .float 0)
  refine .bind (value_plain hg he uv .vec2) fun uv hu => .bind level fun level hl => ?_
  exact .following (useTexture_wording name) fun t ht => .pure (.sample ht.1 ht.2 hu hl)

theorem operator_plain (op : BinaryOp) (left right : NodeId) :
    (Law.wording p).Equates env (buildOperator g op left right) (buildOperator g' op left right)
      Expr.Plain := by
  refine .after (typeOf_wording left) fun l => .after (typeOf_wording right) fun r => ?_
  refine .after (.ofExcept fun _ _ => rfl) fun result => ?_
  refine .bind (value_plain hg he left _) fun l hl => ?_
  refine .bind (value_plain hg he right _) fun r hr => ?_
  exact .ite (fun _ => .pure (.remainder hl hr)) fun _ => .pure (.operator op hl hr)

theorem unary_plain (op : UnaryOp) (operand : NodeId) :
    (Law.wording p).Equates env (buildUnary g op operand) (buildUnary g' op operand) fun e =>
      ∀ x ∈ e, x.Plain := by
  refine .after (typeOf_wording operand) fun type => .after (.discard (.ofExcept fun _ _ => rfl))
    fun _ => ?_
  exact .bind (hg.emit operand he) fun e hx => .pure (Expr.plain_map hx fun _ h => .unary op h)

theorem math_plain (id : NodeId) (m : MathMethod) (args : List NodeId) :
    (Law.wording p).Equates env (buildMath g id m args) (buildMath g' id m args) Expr.Plain := by
  refine .after .stage fun t => .check rfl fun _ => .after (typeOf_wording id) fun result => ?_
  refine .after (.mapM fun c _ => typeOf_wording c) fun types =>
    .after (.ofExcept fun _ _ => rfl) fun targets => ?_
  exact .bind (values_plain hg he _) fun es hes => .pure (.math m hes)

theorem split_plain (source : NodeId) (components : String) :
    (Law.wording p).Equates env (buildSplit g source components) (buildSplit g' source components)
      fun e => ∀ x ∈ e, x.Plain := by
  refine .after (typeOf_wording source) fun type => .after (.discard (.ofExcept fun _ _ => rfl))
    fun _ => .after (.ofExcept fun _ _ => rfl) fun cs => ?_
  exact .bind (hg.emit source he) fun e hx => .pure (Expr.plain_map hx fun _ h => .swizzle h cs)

theorem join_plain {parts : List NodeId} {explicit : Option ValueType} (hm : p.resolve id = .ok id)
    (hn : p.node id = .ok (.join parts explicit)) :
    (Law.wording p).Equates env (buildJoin g id parts) (buildJoin g' id parts) Expr.Plain := by
  refine .following (typeOf_joined id) fun type ht => ?_
  have part : ∀ kind c, (Law.wording p).Equates env (do g.value c ((← typeOf c).recast kind))
      (do g'.value c ((← typeOf c).recast kind)) Expr.Plain := fun kind c =>
    .after (typeOf_wording c) fun t => value_plain hg he c _
  refine .bind (.all fun c _ => part _ c) fun es hes => .after (useType_wording type) fun _ => ?_
  exact .pure (.construct (ht id hm parts explicit hn) hes)

theorem convert_plain (source : NodeId) (target : ValueType) :
    (Law.wording p).Equates env (buildConvert g source target) (buildConvert g' source target)
      fun e => ∀ x ∈ e, x.Plain := by
  refine .after (typeOf_wording source) fun type => .bind (hg.emit source he) fun e hx => ?_
  cases e with
  | some e =>
    exact .own (.map (.ofExcept (fun _ _ => rfl) fun e' h => (hx e rfl).convert h) fun _ =>
      Expr.plain_some)
  | none => exact .check rfl fun _ => .pure fun _ hx => nomatch hx

theorem array_plain {element : ValueType} (ht : element.heldStruct? = none) (values : List NodeId) :
    (Law.wording p).Equates env (buildArray g element values) (buildArray g' element values)
      Expr.Plain := by
  have typed : (Law.wording p).Yields env (ofExcept (arrayType element values.length)) fun t =>
      t.heldStruct? = none := by
    refine .ofExcept (fun _ _ => rfl) fun t h => ?_
    unfold arrayType at h
    split at h
    · cases h
    · split at h
      · cases h
      · cases h
      · cases h
        exact ht
  refine .following typed fun t held => .bind (values_plain hg he _) fun es hes => ?_
  exact .after (useType_wording t) fun _ => .pure (.construct held hes)

theorem element_plain {base : Option Expr} (hb : ∀ x ∈ base, x.Plain) (source i : NodeId) :
    (Law.wording p).Equates env (buildElement g base source i) (buildElement g' base source i)
      fun e => ∀ x ∈ e, x.Plain := by
  have checked : ∀ t, (Law.wording p).Keeps env (checkIndex t i) := by
    refine fun t => .resolve fun m _ => .node fun n _ => ?_
    split
    · exact .ite (fun _ => .fail rfl) fun _ => .pure _
    · exact .pure _
  refine .after (typeOf_wording source) fun type => .after (typeOf_wording i) fun index => ?_
  refine .after (.discard (.elementType type index)) fun _ => .after (checked type) fun _ => ?_
  exact .bind (value_plain hg he i index) fun i hi =>
    .pure (Expr.plain_map hb fun _ h => .index h hi)

theorem index_plain (base i : NodeId) :
    (Law.wording p).Equates env (buildIndex g base i) (buildIndex g' base i) fun e =>
      ∀ x ∈ e, x.Plain :=
  .bind (hg.emit base he) fun _ hb => element_plain hg he hb base i

/-! ### Varyings -/

theorem varying_plain (source : NodeId) (name : Option String) (interpolation : Interpolation)
    (sampling : Option Sampling) :
    (Law.wording p).Equates env (buildVarying g id source name interpolation sampling)
      (buildVarying g' id source name interpolation sampling) Expr.Plain := by
  have write : ∀ v : VaryingEntry, Name.IsWord v.name →
      (Law.wording p).Alike env (writeVarying g id v) (writeVarying g' id v) := by
    refine fun v hv => .ite (fun _ => .pure trivial) fun _ =>
      .bind (inVertex_wording he fun he => ?_) fun _ _ => .kept (locateVarying_wording id hv)
    exact .bind (value_plain hg he v.source v.type) fun e _ => .kept <|
      .bind (addStatement_wording _) fun _ => wording_modifyHere fun _ => rfl
  refine .after .stage fun t => .check rfl fun _ => ?_
  refine .following (registerVarying_wording id source name interpolation sampling) fun v hv => ?_
  refine .bind (write v hv) fun _ _ => .own ?_
  exact .when (fun _ => wording_modifyHere fun _ => rfl) fun _ => .pure (.reference hv)

/-! ### Places, variables and assignments -/

theorem placeBase_plain (base : NodeId) :
    (Law.wording p).Equates env (placeBase g base) (placeBase g' base) Expr.Plain := by
  refine .resolve fun m _ => .node fun n _ => ?_
  split
  · refine .own (.bind (registerStorage_wording _ _ _ _) fun b hb => ?_)
    exact .bind (useStorage_wording _ hb) fun e h => .check rfl fun _ => .pure h
  · exact .map (hg.place base he) fun _ h => h

theorem place_plain (id : NodeId) (type : ValueType) {n : Node} (hs : n.isStructless = true) :
    (Law.wording p).Equates env (placeOf g id type n) (placeOf g' id type n) Expr.Plain := by
  have own : (Law.wording p).Equates env (ownPlace g id type) (ownPlace g' id type)
      Expr.Plain := by
    refine .bind (hg.emit id he) fun e hx => ?_
    cases e with
    | some e => exact .pure (hx e rfl)
    | none => exact .fail rfl
  unfold placeOf
  split
  · exact .fail rfl
  · exact own
  · exact own
  · cases hs
  · refine .bind (placeBase_plain hg he _) fun base hb =>
      .bind (element_plain hg he (Expr.plain_some hb) _ _) fun e hx => ?_
    cases e with
    | some e => exact .pure (hx e rfl)
    | none => exact .fail rfl
  · next base components =>
    refine .after .dialect fun d => ?_
    have rest : (Law.wording p).Equates env (swizzlePlace g base components)
        (swizzlePlace g' base components) Expr.Plain :=
      .bind (hg.place base he) fun r hr => .after (.ofExcept fun _ _ => rfl) fun cs =>
        .pure (.swizzle hr cs)
    exact .ite (fun _ => .after .dialect fun d => .fail rfl) fun _ => rest
  · exact .fail rfl

theorem buildPlace_plain (hp : p.Structless) (id : NodeId) :
    (Law.wording p).Equates env (buildPlace g id) (buildPlace g' id) fun r => r.1.Plain := by
  refine .given fun s hs => ?_
  obtain ⟨rfl, -⟩ := hs
  refine .resolve fun m _ => .located (.node fun n hn => ?_)
  refine .after (typeOf_wording m) fun type => ?_
  exact .bind (place_plain hg he m type (hp m n hn)) fun _ h => .pure h

theorem buildVariable_plain (value : NodeId) (name : Option String) (readOnly : Bool) :
    (Law.wording p).Equates env (buildVariable g id value name readOnly)
      (buildVariable g' id value name readOnly) Expr.Plain := by
  have prepare : (Law.wording p).Equates env (prepareVariable g id value name)
      (prepareVariable g' id value name) fun r => Name.IsWord r.2.2 := by
    refine .after (typeOf_wording id) fun type => ?_
    refine .bind (value_plain hg he value type) fun init _ => ?_
    refine .own (.after (useType_wording type) fun _ => ?_)
    cases name with
    | some name => exact .map (claimLocal_wording name) fun _ h => h
    | none => exact .map claimTemp_wording fun _ h => h
  refine .following (boundName?_wording id) fun bound hb => ?_
  cases bound with
  | some n => exact .pure (plain_local (hb n rfl))
  | none =>
    refine .bind prepare fun v hv => .own (.after ?_ fun _ => .pure (plain_local hv))
    exact .bind (.mutability value readOnly) fun m => .bind (.recordKey id) fun key =>
      .bind (addStatement_wording _) fun _ => bindName_wording id hv none

theorem buildAssign_wording (target value : NodeId) (op : Option BinaryOp) :
    (Law.wording p).Alike env (buildAssign g target value op) (buildAssign g' target value op) := by
  refine .bind (hg.place target he) fun r _ => ?_
  cases op with
  | none =>
    have assign : (Law.wording p).Alike env (buildPlainAssign g r.1 r.2 value)
        (buildPlainAssign g' r.1 r.2 value) :=
      .bind (value_plain hg he value _) fun e _ => .pure trivial
    exact .bind assign fun st _ => .kept (addStatement_wording st)
  | some op =>
    have update : (Law.wording p).Alike env (buildUpdate g r.1 r.2 op value)
        (buildUpdate g' r.1 r.2 op value) := by
      refine .after (typeOf_wording value) fun t => ?_
      refine .after (.ofExcept fun _ _ => rfl) fun result => ?_
      refine .check rfl fun _ => .bind (value_plain hg he value _) fun e _ => ?_
      exact .ite (fun _ => .pure trivial) fun _ => .pure trivial
    exact .bind update fun st _ => .kept (addStatement_wording st)

/-! ### Control flow and calls -/

theorem branch_wording (n : String) (type : ValueType) (c : NodeId) :
    (Law.wording p).Alike env (buildBranch g n type c) (buildBranch g' n type c) :=
  inBlock_wording (.bind (value_plain hg he c type) fun _ _ => .kept (addStatement_wording _))

theorem choice_plain (type : ValueType) {c : Expr} (hc : c.Plain) (thenNode elseNode : NodeId) :
    (Law.wording p).Equates env (buildChoice g id type c thenNode elseNode)
      (buildChoice g' id type c thenNode elseNode) fun e => ∀ x ∈ e, x.Plain := by
  refine .after (.arePure _) fun pure => .ite (fun _ => buildTemp_plain ?_) fun _ => ?_
  · exact .bind (value_plain hg he thenNode type) fun t ht =>
      .bind (value_plain hg he elseNode type) fun e he => .pure (Expr.plain_some (.select hc ht he))
  · refine .following (declareTemp_wording _ _ _) fun n hn => ?_
    refine .bind (branch_wording hg he n type thenNode) fun t _ =>
      .bind (branch_wording hg he n type elseNode) fun e _ => .own ?_
    exact .after (addStatement_wording _) fun _ => .after (bindValue_wording hn) fun _ =>
      .pure (Expr.plain_some (plain_local hn))

theorem conditional_plain (condition thenNode : NodeId) (elseNode : Option NodeId) :
    (Law.wording p).Equates env (buildConditional g id condition thenNode elseNode)
      (buildConditional g' id condition thenNode elseNode) fun e => ∀ x ∈ e, x.Plain := by
  refine .following (boundName?_wording id) fun bound hb => ?_
  cases bound with
  | some n => exact .pure (Expr.plain_some (plain_local (hb n rfl)))
  | none =>
    refine .after (typeOf_wording id) fun type => .bind (value_plain hg he condition .bool)
      fun c hc => ?_
    have block : ∀ c, (Law.wording p).Alike env (inBlock (g.statement c))
        (inBlock (g'.statement c)) := fun c => inBlock_wording (statement_wording hg he c)
    have done : ∀ st, (Law.wording p).Yields env (addStatement st >>= fun _ => Pure.pure none)
        fun e : Option Expr => ∀ x ∈ e, x.Plain := fun st =>
      .after (addStatement_wording st) fun _ => .pure fun _ hx => nomatch hx
    cases elseNode with
    | none => exact .bind (block thenNode) fun _ _ => .own (done _)
    | some elseNode =>
      refine .ite (fun _ => ?_) fun _ => choice_plain hg he type hc thenNode elseNode
      exact .bind (block thenNode) fun _ _ => .bind (block elseNode) fun _ _ => .own (done _)

omit he in
theorem levels_wording (body : Option NodeId) (level : Nat) (params : List (LoopParam NodeId))
    (he : env.Worded) : (Law.wording p).Alike env (buildLevels g id body level params)
      (buildLevels g' id body level params) := by
  induction params generalizing env level with
  | nil =>
    cases body with
    | none => exact .pure trivial
    | some body => exact statement_wording hg he body
  | cons param rest ih =>
    have bound : ∀ kind b, (Law.wording p).Alike env (buildBound g param.type kind b)
        (buildBound g' param.type kind b) := by
      intro kind b
      cases b with
      | value v => exact .pure trivial
      | node c => exact (value_plain hg he c _).imp fun _ _ => trivial
    have inner : ∀ counter, Name.IsWord counter → (Law.wording p).Alike env
        (inLoop ⟨id, level, counter⟩ (inBlock (buildLevels g id body (level + 1) rest)))
        (inLoop ⟨id, level, counter⟩ (inBlock (buildLevels g' id body (level + 1) rest))) :=
      fun counter hc => .seen (fun _ _ => rfl) (fun s hs => ⟨(Law.wording p).refl s, hs⟩) fun _ _ =>
        inBlock_wording (ih (level + 1) (he.inside hc))
    rw [buildLevels, buildLevels]
    refine .after (.ofExcept fun _ _ => rfl) fun kind => .read (.following (claimLocal_wording _)
      fun counter hc => .after (useType_wording _) fun _ => ?_)
    refine .bind (bound _ _) fun start _ => .bind (bound _ _) fun stop _ =>
      .bind (inner counter hc) fun ss _ => .kept ?_
    exact .bind (releaseLocal_wording counter) fun _ => addStatement_wording _

theorem stack_plain (nodes : List NodeId) (output : Option NodeId) :
    (Law.wording p).Equates env (buildStack g nodes output) (buildStack g' nodes output) fun e =>
      ∀ x ∈ e, x.Plain := by
  refine .bind (.forM fun c _ => statement_wording hg he c) fun _ _ => ?_
  cases output with
  | none => exact .pure fun _ hx => nomatch hx
  | some output => exact hg.emit output he

theorem argument_wording (function : String) (arg : NodeId) (q : Native.Parameter) :
    (Law.wording p).Alike env (buildArgument g function arg q) (buildArgument g' function arg q) :=
  .ite (fun _ => .bind (hg.place arg he) fun _ _ => .check rfl fun _ => .pure trivial)
    fun _ => (value_plain hg he arg _).imp fun _ _ => trivial

theorem call_plain (function : FunctionId) (args : List NodeId) :
    (Law.wording p).Equates env (buildCall g id function args) (buildCall g' id function args)
      fun e => ∀ x ∈ e, x.Plain := by
  refine .following (boundName?_wording id) fun bound hb => ?_
  cases bound with
  | some n => exact .pure (Expr.plain_some (plain_local (hb n rfl)))
  | none =>
    refine .following (registerFunction_wording function) fun f hf => .check rfl fun _ => ?_
    refine .after (useFunction_wording function) fun _ => ?_
    refine .bind (.all fun a _ => argument_wording hg he f.name a.1 a.2) fun values _ => .own ?_
    refine .ite (fun _ => .after (addStatement_wording _) fun _ => .pure fun _ hx => nomatch hx)
      fun _ => ?_
    refine .bind (declareTemp_wording _ _ _) fun n hn => .after (bindValue_wording hn) fun _ => ?_
    exact .pure (Expr.plain_some (plain_local hn))

/-! ### All nodes -/

omit he in
/-- The code of a node is plain when that of the nodes below is. -/
theorem generateNode_plain (he : env.Worded) {n : Node} (hm : p.resolve id = .ok id)
    (hn : p.node id = .ok n) (hs : n.isStructless = true) :
    (Law.wording p).Equates env (generateNode g id n) (generateNode g' id n) fun e =>
      ∀ x ∈ e, x.Plain := by
  have none : ∀ x ∈ (none : Option Expr), x.Plain := fun _ hx => nomatch hx
  have some : ∀ {step step' : Build Expr}, (Law.wording p).Equates env step step' Expr.Plain →
      (Law.wording p).Equates env (Option.some <$> step) (Option.some <$> step') fun e =>
        ∀ x ∈ e, x.Plain := fun h => h.map fun _ => Expr.plain_some
  have own : ∀ {step : Build Expr}, (Law.wording p).Yields env step Expr.Plain →
      (Law.wording p).Equates env (Option.some <$> step) (Option.some <$> step) fun e =>
        ∀ x ∈ e, x.Plain := fun h => some (.own h)
  cases n with
  | const type values => exact own (constant_plain type values)
  | uniform name type group update value =>
    exact .following (registerUniform_wording id name type group update value) fun r hr =>
      own (useUniform_wording r.1 hr)
  | meshAttribute name type => exact own (attribute_plain name type)
  | varying source name interpolation sampling =>
    exact some (varying_plain hg he source name interpolation sampling)
  | property name type => exact own (property_plain name type)
  | builtin b => exact own (useBuiltin_wording b)
  | texture name uv level => exact buildTemp_plain (some (texture_plain hg he name uv level))
  | storageBuffer name element count access => exact own (storage_plain name element count access)
  | var value name readOnly => exact some (buildVariable_plain hg he value name readOnly)
  | assign target value op =>
    exact .bind (buildAssign_wording hg he target value op) fun _ _ => .pure none
  | operator op left right => exact buildTemp_plain (some (operator_plain hg he op left right))
  | unary op operand => exact buildTemp_plain (unary_plain hg he op operand)
  | math method args => exact buildTemp_plain (some (math_plain hg he id method args))
  | split source components => exact split_plain hg he source components
  | join parts explicit => exact buildTemp_plain (some (join_plain hg he hm hn))
  | convert source target => exact buildTemp_plain (convert_plain hg he source target)
  | conditional condition thenNode elseNode =>
    exact conditional_plain hg he condition thenNode elseNode
  | loop params body =>
    have levels : (Law.wording p).Alike env (buildLoop g id params body)
        (buildLoop g' id params body) := by
      unfold buildLoop
      exact .check rfl fun _ => levels_wording hg body 0 params he
    exact .bind levels fun _ _ => .pure none
  | loopIndex loop param => exact own (counter_plain he loop param)
  | jump j =>
    refine .own (.after (.read (.when (fun _ => .fail rfl) fun _ => ?_)) fun _ => .pure none)
    exact addStatement_wording _
  | stack nodes output => exact stack_plain hg he nodes output
  | structType name members => exact .fail rfl
  | array element values =>
    refine buildTemp_plain (some (array_plain hg he ?_ values))
    exact Option.isNone_iff_eq_none.1 hs
  | index base i => exact index_plain hg he base i
  | context inner values =>
    refine .seen (inContext_run id values) (fun s hs => ?_) fun s _ => hg.emit inner he
    exact ⟨worded_frames, hs.1, worded_frames hs.2⟩
  | contextValue key fallback =>
    refine .read ?_
    split
    · next c outer _ =>
      refine .seen (fun _ _ => rfl) (fun s hs => ?_) fun _ _ => hg.emit c he
      exact ⟨(Law.wording p).refl s, hs⟩
    · cases fallback with
      | some c => exact hg.emit c he
      | none => exact .fail rfl
  | cache inner shares =>
    refine .seen (cacheScope_run id shares) (fun s hs => ?_) fun s _ => hg.emit inner he
    have grown : (Law.wording p).rel [] s _ := wording_roams.scopes id shares hs
    exact ⟨grown, hs.1, grown hs.2⟩
  | call function args => exact call_plain hg he function args
  | struct | member => cases hs
  | remap | custom => exact .fail rfl

end

/-! ### Runs -/

/-- A generator that hands over what it makes of a node only where a check lets it pass, and ends in
the failure `f` otherwise. -/
def checked (passes : Expr → Bool) (f : Failure) : Nat → Generator
  | 0 => ⟨fun _ => exhaust, fun _ => exhaust⟩
  | fuel + 1 =>
    { emit := fun id => do
        let code ← emitNode (checked passes f fuel) id
        if code.all passes then return code else fun _ _ => .error f
      place := fun id => buildPlace (checked passes f fuel) id }

theorem recordVisit_wording {before : BuildState} {code : Option Expr}
    (h : ∀ x ∈ code, x.Plain) : (Law.wording p).Keeps env (recordVisit before id code) :=
  fun _ _ hs => { hs with visits := List.forall_mem_cons.2 ⟨h, hs.visits⟩ }

theorem emitNode_plain (hp : p.Structless) (hg : g.Plain p g') (he : env.Worded) (id : NodeId) :
    (Law.wording p).Equates env (emitNode g id) (emitNode g' id) fun e => ∀ x ∈ e, x.Plain := by
  refine .given fun s hs => ?_
  obtain ⟨rfl, -⟩ := hs
  refine .resolve fun m hm => .get fun before _ => ?_
  have code : (Law.wording env.plan).Equates env (located m do generateNode g m (← node m))
      (located m do generateNode g' m (← node m)) fun e => ∀ x ∈ e, x.Plain :=
    .located (.node fun n hn =>
      generateNode_plain hg he (Plan.resolve_of_resolve hm) hn (hp m n hn))
  exact .bind code fun e h => .own (.after (recordVisit_wording h) fun _ => .pure h)

/-- What a generator makes of nodes is plain, so a check that lets all operands pass is never
noticed. -/
theorem generator_plain (hp : p.Structless) {d : Dialect} (passes : Expr → Bool)
    (lenient : ∀ e : Expr, e.Embeds d → passes e = true) (f : Failure) (fuel : Nat) :
    (generator fuel).Plain p (checked passes f fuel) := by
  -- a node that is one level deeper is generated with one unit of fuel less
  induction fuel with
  | zero => exact ⟨fun _ _ => .own fun _ _ => trivial, fun _ _ => .own fun _ _ => trivial⟩
  | succ fuel ih =>
    refine ⟨fun {env} id he => ?_, fun id he => buildPlace_plain ih he hp id⟩
    show Law.Equates _ env (emitNode (generator fuel) id) _ _
    rw [← bind_pure (emitNode (generator fuel) id)]
    refine .bind (emitNode_plain hp ih he id) fun code hc => ?_
    have pass : code.all passes = true := by
      cases code with
      | none => rfl
      | some e => exact lenient e (hc e rfl).embeds
    rw [if_pos pass]
    exact .pure hc

/-- The value of the root of a stage as one of some generators gives it. -/
def rootBy (generators : Nat → Generator) (stage : Stage) (root : NodeId) :
    Build (Option Expr) := do
  let g := generators (← depthBound)
  match stage with
  | .vertex | .fragment => some <$> g.value root .vec4
  | .compute =>
    if (← g.emit root).isSome then discard <| typeOf root
    return none

/-- Generates the program of the current stage with one of some generators. -/
def stageBy (generators : Nat → Generator) (root : NodeId) : Build Unit := do
  let output ← rootBy generators (← stage) root
  modifyHere fun b => { b with output := output }

/-- Analyses the stages of a plan and generates them with some generators. -/
def runBy (generators : Nat → Generator) (p : Plan) (roots : List (Stage × NodeId)) :
    Except Failure BuildState :=
  let active := roots.map Prod.fst
  match atRoots p active analyze roots (BuildState.start p) with
  | .ok s => atRoots p active (stageBy generators) roots s
  | .error f => .error f

theorem runBy_generator (p : Plan) (rs : List (Stage × NodeId)) :
    runBy generator p rs = run p rs := rfl

/-- The program of a stage is generated from words, by both generators alike. -/
theorem generateStage_wording {generators : Nat → Generator} (he : env.Worded)
    (hg : ∀ fuel, (generator fuel).Plain p (generators fuel)) (root : NodeId) :
    (Law.wording p).Alike env (generateStage root) (stageBy generators root) := by
  have value : ∀ t, (Law.wording p).Alike env (generateRoot t root) (rootBy generators t root) := by
    refine fun t => .after (.read (.pure _)) fun fuel => ?_
    cases t with
    | vertex | fragment => exact .map (value_plain (hg fuel) he root .vec4) fun _ _ => trivial
    | compute =>
      exact .bind ((hg fuel).emit root he) fun e _ => .kept <|
        .when (fun _ => .discard (typeOf_wording root)) fun _ => .pure _
  exact .after .stage fun t => .bind (value t) fun _ _ => .kept (wording_modifyHere fun _ => rfl)

variable {rs : List (Stage × NodeId)} {d : Dialect}

/-- After analysis all names are words. -/
theorem analyzed_worded
    (h : atRoots p (rs.map Prod.fst) analyze rs (BuildState.start p) = .ok s) : s.Worded p := by
  have start : ∀ r ∈ rs, (Law.wording p).inv (Env.root p (rs.map Prod.fst) r.1)
      (BuildState.start p) := fun _ _ => ⟨rfl, worded_start p⟩
  have kept := Law.Keeps.atRoots start fun r _ => analyze_wording r.2
  rw [h] at kept
  exact kept (worded_start p)

/-- The stages are generated from words, by both generators alike. -/
theorem stages_alike (hp : p.Structless) (passes : Expr → Bool)
    (lenient : ∀ e : Expr, e.Embeds d → passes e = true) (f : Failure)
    (rs : List (Stage × NodeId)) :
    ∀ r ∈ rs, (Law.wording p).Alike (Env.root p (rs.map Prod.fst) r.1) (generateStage r.2)
      (stageBy (checked passes f) r.2) := fun r _ =>
  generateStage_wording (Env.worded_root p _ _) (generator_plain hp passes lenient f) r.2

/-- After a run all names are words. -/
theorem run_worded (hp : p.Structless) (h : run p rs = .ok s) : s.Worded p := by
  obtain ⟨s₀, hanalyze, hgenerate⟩ := of_run h
  have worded := analyzed_worded hanalyze
  have middle : ∀ r ∈ rs, (Law.wording p).inv (Env.root p (rs.map Prod.fst) r.1) s₀ :=
    fun _ _ => ⟨rfl, worded⟩
  have alike := stages_alike (d := .glsl) hp (fun _ => true) (fun _ _ => rfl) .exhausted rs
  have kept := Law.Keeps.atRoots middle fun r hr => (alike r hr).keeps
  rw [hgenerate] at kept
  exact kept worded

/-- A run in which everything that a visit gives is checked goes as the run does, whether that
succeeds or fails, if the check lets operands pass. -/
theorem runBy_checked (hp : p.Structless) (passes : Expr → Bool)
    (lenient : ∀ e : Expr, e.Embeds d → passes e = true) (f : Failure)
    (rs : List (Stage × NodeId)) : runBy (checked passes f) p rs = run p rs := by
  rw [← runBy_generator]
  unfold runBy
  dsimp only
  cases hanalyze : atRoots p (rs.map Prod.fst) analyze rs (BuildState.start p) with
  | error f => rfl
  | ok s =>
    have middle : ∀ r ∈ rs, (Law.wording p).inv (Env.root p (rs.map Prod.fst) r.1) s :=
      fun _ _ => ⟨rfl, analyzed_worded hanalyze⟩
    exact Law.Alike.atRoots middle (stages_alike hp passes lenient f rs)

/-- What a visit of a node gives is one operand, whatever becomes of the build: from any state and
in any surroundings whose names are words, as they are at the start and after each visit. So a run
in which all that visits give is checked, and which ends in a failure `f` of its own where the check
does not pass, goes as the run does, also where that fails; and all that is remembered of a run are
operands. -/
theorem run_operands (hp : p.Structless) (d : Dialect) :
    (∀ fuel id env s e s', env.plan = p → env.Worded → s.Worded p →
        (generator fuel).emit id env s = .ok (e, s') → s'.Worded p ∧ ∀ x ∈ e, x.Embeds d) ∧
      (∀ passes f rs, (∀ e : Expr, e.Embeds d → passes e = true) →
        runBy (checked passes f) p rs = run p rs) ∧
      ∀ rs s, run p rs = .ok s → ∀ v ∈ s.visits, ∀ e ∈ v.code, e.Embeds d := by
  refine ⟨fun fuel id env s e s' he loops hs h => ?_,
    fun passes f rs lenient => runBy_checked hp passes lenient f rs, fun rs s h v hv e he => ?_⟩
  · have nodes := generator_plain (d := d) hp (fun _ => true) (fun _ _ => rfl) .exhausted fuel
    have code := ((nodes.emit id loops).yields s ⟨he, hs⟩).post h
    exact ⟨code.1 hs, fun x hx => (code.2 x hx).embeds⟩
  · exact ((run_worded hp h).visits v hv e he).embeds

/-- Twice the negation of a negative number. -/
def negated : Graph := .ofNodes
  [.const .int [-2], .unary .neg ⟨0⟩, .unary .neg ⟨1⟩]

/-- Signs do not run into one another where negations are put together. -/
theorem negated_operands : (Plan.ofGraph negated .standard).Structless ∧
    ∃ s, run (.ofGraph negated .standard) [(.fragment, ⟨2⟩)] = .ok s ∧
      (∃ v ∈ s.visits, ∃ e ∈ v.code, e.text .wgsl = "(-(-(-2)))") ∧
      ∀ v ∈ s.visits, ∀ e ∈ v.code, Dialect.wgsl.Operand (e.text .wgsl).toList := by
  have structless : (Plan.ofGraph negated .standard).Structless := by
    have all : ((Plan.ofGraph negated .standard).graph.entries.toList.map Entry.node).all
        NodeOf.isStructless = true := by decide
    exact fun _ n hn => List.all_eq_true.1 all n (Plan.mem_of_node hn)
  have shown : leaves
      (fun s => s.visits.any fun v => v.code.any fun e => e.text .wgsl == "(-(-(-2)))")
      (run (.ofGraph negated .standard) [(.fragment, ⟨2⟩)]) = true := by
    decide +kernel
  obtain ⟨s, hs, hany⟩ := of_leaves shown
  obtain ⟨-, -, operands⟩ := run_operands structless .wgsl
  refine ⟨structless, s, hs, ?_, fun v hv e he => (operands _ s hs v hv e he).operand⟩
  obtain ⟨v, hv, text⟩ := List.any_eq_true.1 hany
  obtain ⟨e, he, same⟩ := Option.any_eq_true _ _ |>.1 text
  exact ⟨v, hv, e, he, eq_of_beq same⟩

end Build

end ShaderGraph
