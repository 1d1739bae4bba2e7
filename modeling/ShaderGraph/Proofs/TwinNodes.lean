import ShaderGraph.Proofs.TwinCode
import ShaderGraph.Proofs.Unfolding

/-!
# Twin generation

Each step of generation takes the same course in twin builds when the steps for the nodes below do:
values first, then places, conditionals, loops and calls, and so the whole generator
(`Build.Twins.generator_twin`).
-/

namespace ShaderGraph

variable {same : Prop}

/-- The steps of a generator take the same course in twin builds. -/
structure Generator.Twin (same : Prop) (g : Generator) : Prop where
  emit : ∀ {env env' : Env}, env.Twin same env' → ∀ id,
    Build.Twins same env env' (Alike same Option.isSome) (g.emit id) (g.emit id)
  place : ∀ {env env' : Env}, env.Twin same env' → ∀ id,
    Build.Twins same env env' (fun r r' => Made same r.1 r'.1 ∧ r.2 = r'.2) (g.place id)
      (g.place id)

/-- Whether an expression can be brought to a type depends on its type only. -/
theorem Expr.coerce_agrees {e e' : Expr} (h : Made same e e') (source target : ValueType) :
    Agrees same (Made same) (e.coerce source target) (e'.coerce source target) := by
  rcases Code.coerce_cases source target with ⟨_, he⟩ | he | ⟨k, l, he⟩ | ⟨k, l, he⟩ | he
  all_goals rw [he e, he e']
  · trivial
  · exact h
  · exact h.map fun e => e.castScalar k l
  · exact h.map fun e => Expr.construct target [e.castScalar k l]
  · exact h.map fun e => Expr.construct target [e]

/-- Whether an expression can be converted to a type depends on its type only. -/
theorem Expr.convert_agrees {e e' : Expr} (h : Made same e e') (source target : ValueType) :
    Agrees same (Made same) (e.convert source target) (e'.convert source target) := by
  rcases Code.convert_cases source target with
    ⟨_, he⟩ | he | ⟨cast, -, he | he | ⟨cs, he⟩ | ⟨source, target, kind, he⟩⟩
  all_goals rw [he e, he e']
  · trivial
  · exact h
  · exact h.map cast
  · exact h.map fun e => Expr.construct target [cast e]
  · exact h.map fun e => Expr.swizzle (cast e) cs
  · exact h.map fun e => Expr.construct _ (cast e :: padding source target kind)

/-- Of a property only the type is left. -/
theorem StageBuild.shape_enterProperty (b : StageBuild) (locals : List Statement)
    (name emitted : String)
    (type : ValueType) :
    StageBuild.shape
        { b with locals := locals, properties := b.properties.put name (type, emitted) } =
      { b.shape with properties := b.shape.properties.put name (type, "") } := by
  simp [shape]

namespace Build.Twins

variable {env env' : Env} {g : Generator} {id : NodeId}

theorem value (hg : g.Twin same) (henv : env.Twin same env') (id : NodeId) (target : ValueType) :
    Twins same env env' (Made same) (g.value id target) (g.value id target) := by
  refine (resolve henv id).bind fun m m' hm => ?_
  subst hm
  refine .located ((hg.emit henv m).bind fun e e' he => (typeOf henv m).bind fun t t' ht => ?_)
  subst ht
  rcases he.option with ⟨rfl, rfl⟩ | ⟨x, x', rfl, rfl, hx⟩
  · exact .fail
  · exact .check Iff.rfl fun _ => .ofExcept (Expr.coerce_agrees hx t target)

theorem statement (hg : g.Twin same) (henv : env.Twin same env') (id : NodeId) :
    Twins same env env' (fun _ _ => True) (g.statement id) (g.statement id) :=
  (hg.emit henv id).discard

theorem values (hg : g.Twin same) (henv : env.Twin same env') (ids : List (NodeId × ValueType)) :
    Twins same env env' (Made same) (g.values ids) (g.values ids) :=
  (mapM fun v _ => value hg henv v.1 v.2).imp fun _ _ => Made.of_forall₂

/-! ### Constants and inputs -/

theorem buildConstant (henv : env.Twin same env') (type : ValueType) (values : List Float) :
    Twins same env env' (Made same) (Build.buildConstant type values)
      (Build.buildConstant type values) := by
  refine (rule (constantType type values)).discard.bind fun _ _ _ => ?_
  refine .ite Iff.rfl (fun _ => .pure (.refl _)) fun _ => ?_
  exact (useType henv type).bind fun _ _ _ => .pure (.refl _)

theorem buildProperty (henv : env.Twin same env') (name : String) (type : ValueType) :
    Twins same env env' (Made same) (Build.buildProperty name type)
      (Build.buildProperty name type) := by
  refine (here henv).bind fun b b' hb => ?_
  have properties : Alike same (OrderedMap.map fun v : ValueType × String => (v.1, ""))
      b.properties b'.properties :=
    hb.map StageBuild.properties fun _ _ h => congrArg StageBuild.properties h
  rcases OrderedMap.found properties name with ⟨hn, hn'⟩ | ⟨v, v', hv, hv', alike⟩
  · simp only [hn, hn']
    refine (useType henv type).bind fun _ _ _ => ?_
    refine (claimLocal henv (.refl name)).bind fun emitted emitted' hemitted => ?_
    refine (modifyHere henv (fun he => by rw [hemitted he]) fun b b' hb => ?_).bind fun _ _ _ =>
      .pure (hemitted.map Build.localName)
    rw [StageBuild.shape_enterProperty, StageBuild.shape_enterProperty, hb]
  · simp only [hv, hv']
    have type' : v.1 = v'.1 := (congrArg Prod.fst alike.shape :)
    refine .check (by rw [type']) fun _ => .pure fun he => ?_
    rw [alike.eq he]

theorem buildAttribute (henv : env.Twin same env') (name : String) (type : Option ValueType) :
    Twins same env env' (Made same) (Build.buildAttribute name type)
      (Build.buildAttribute name type) :=
  (stage henv).bind fun t t' ht => .check (by rw [ht]) fun _ => useAttribute henv name type

theorem writeVarying (hg : g.Twin same) (henv : env.Twin same env') (id : NodeId)
    {v v' : VaryingEntry} (h : Alike same VaryingEntry.shape v v') :
    Twins same env env' (fun _ _ => True) (Build.writeVarying g id v)
      (Build.writeVarying g id v') := by
  have location : v.location = v'.location := (congrArg VaryingEntry.location h.shape :)
  have source : v.source = v'.source := (congrArg VaryingEntry.source h.shape :)
  have type : v.type = v'.type := (congrArg VaryingEntry.type h.shape :)
  refine .ite (by rw [location]) (fun _ => .pure trivial) fun _ => ?_
  refine .bind (R := fun _ _ => True) (inStage henv fun {e e'} henv => ?_) fun _ _ _ =>
    locateVarying h
  rw [source, type]
  refine (value hg henv _ _).bind fun x x' hx => ?_
  refine (addStatement henv fun he => by rw [hx he, h.eq he]).bind fun _ _ _ => ?_
  exact collect henv fun _ => rfl

theorem buildVarying (hg : g.Twin same) (henv : env.Twin same env') (id source : NodeId)
    (name : Option String) (interpolation : Interpolation) (sampling : Option Sampling) :
    Twins same env env' (Made same) (Build.buildVarying g id source name interpolation sampling)
      (Build.buildVarying g id source name interpolation sampling) := by
  refine (stage henv).bind fun t t' ht => ?_
  subst ht
  refine .check Iff.rfl fun _ => ?_
  refine (registerVarying henv id source name interpolation sampling).bind fun v v' hv => ?_
  refine (writeVarying hg henv id hv).bind fun _ _ _ => ?_
  refine .when (S := fun _ _ => True) Iff.rfl (fun _ => collect henv fun _ => rfl) ?_
  exact .pure fun he => by rw [hv.eq he]

theorem buildLevel (hg : g.Twin same) (henv : env.Twin same env') (level : Option NodeId) :
    Twins same env env' (Made same) (Build.buildLevel g level) (Build.buildLevel g level) := by
  cases level with
  | some level => exact (value hg henv level .float).bind fun e e' he => .pure (he.map some)
  | none => exact (stage henv).bind fun t t' ht => .pure (ht ▸ .refl _)

theorem buildTexture (hg : g.Twin same) (henv : env.Twin same env') (name : String) (uv : NodeId)
    (level : Option NodeId) :
    Twins same env env' (Made same) (Build.buildTexture g name uv level)
      (Build.buildTexture g name uv level) := by
  refine (value hg henv uv .vec2).bind fun uv uv' huv => ?_
  refine (buildLevel hg henv level).bind fun level level' hlevel => ?_
  refine (useTexture henv name).bind fun t t' ht => .pure fun he => ?_
  rw [huv he, hlevel he, ht.eq he]

theorem buildStorage (henv : env.Twin same env') (name : String) (element : ValueType)
    (count : Option UInt32) (access : Access) :
    Twins same env env' (Made same) (Build.buildStorage name element count access)
      (Build.buildStorage name element count access) :=
  (registerStorage name element count access).bind fun _ _ hb => useStorage henv name hb

/-! ### Expressions -/

theorem buildOperator (hg : g.Twin same) (henv : env.Twin same env') (op : BinaryOp)
    (left right : NodeId) :
    Twins same env env' (Made same) (Build.buildOperator g op left right)
      (Build.buildOperator g op left right) := by
  refine (typeOf henv left).bind fun l l' hl => (typeOf henv right).bind fun r r' hr => ?_
  subst hl hr
  refine (rule (op.resultType l r)).bind fun result result' hresult => ?_
  subst hresult
  refine (value hg henv left _).bind fun x x' hx => (value hg henv right _).bind fun y y' hy => ?_
  exact .ite Iff.rfl (fun _ => .pure (hx.map₂ hy Expr.remainder)) fun _ =>
    .pure (hx.map₂ hy (Expr.operator op))

theorem buildUnary (hg : g.Twin same) (henv : env.Twin same env') (op : UnaryOp)
    (operand : NodeId) :
    Twins same env env' (Alike same Option.isSome) (Build.buildUnary g op operand)
      (Build.buildUnary g op operand) := by
  refine (typeOf henv operand).bind fun t t' ht => ?_
  subst ht
  refine (rule (op.resultType t)).discard.bind fun _ _ _ => ?_
  exact (hg.emit henv operand).bind fun e e' he => .pure (he.mapOption _)

theorem buildMath (hg : g.Twin same) (henv : env.Twin same env') (id : NodeId) (m : MathMethod)
    (args : List NodeId) :
    Twins same env env' (Made same) (Build.buildMath g id m args)
      (Build.buildMath g id m args) := by
  refine (stage henv).bind fun t t' ht => .check (by rw [ht]) fun _ => ?_
  refine (typeOf henv id).bind fun result result' hresult => ?_
  refine (types (fun c => typeOf henv c) args).bind fun ts ts' hts => ?_
  subst hresult hts
  refine (rule (m.argumentTypes ts result)).bind fun targets targets' htargets => ?_
  subst htargets
  exact (values hg henv _).bind fun es es' hes => .pure (hes.map (Expr.math m))

theorem buildSplit (hg : g.Twin same) (henv : env.Twin same env') (source : NodeId)
    (components : String) :
    Twins same env env' (Alike same Option.isSome) (Build.buildSplit g source components)
      (Build.buildSplit g source components) := by
  refine (typeOf henv source).bind fun t t' ht => ?_
  subst ht
  refine (rule (Swizzle.resultType t components)).discard.bind fun _ _ _ => ?_
  refine (rule (Swizzle.read components t.components)).bind fun cs cs' hcs => ?_
  subst hcs
  exact (hg.emit henv source).bind fun e e' he => .pure (he.mapOption _)

theorem buildJoin (hg : g.Twin same) (henv : env.Twin same env') (id : NodeId)
    (parts : List NodeId) :
    Twins same env env' (Made same) (Build.buildJoin g id parts) (Build.buildJoin g id parts) := by
  refine (typeOf henv id).bind fun t t' ht => ?_
  subst ht
  refine ((mapM (R := Made same) fun part _ => (typeOf henv part).bind fun u u' hu => ?_).imp
    fun _ _ => Made.of_forall₂).bind fun es es' hes => ?_
  · subst hu
    exact value hg henv part _
  · exact (useType henv t).bind fun _ _ _ => .pure (hes.map (Expr.construct t))

theorem buildConvert (hg : g.Twin same) (henv : env.Twin same env') (source : NodeId)
    (target : ValueType) :
    Twins same env env' (Alike same Option.isSome) (Build.buildConvert g source target)
      (Build.buildConvert g source target) := by
  refine (typeOf henv source).bind fun t t' ht => (hg.emit henv source).bind fun e e' he => ?_
  subst ht
  rcases he.option with ⟨rfl, rfl⟩ | ⟨x, x', rfl, rfl, hx⟩
  · exact .check Iff.rfl fun _ => .pure (.refl _ _)
  · exact (Twins.ofExcept (Expr.convert_agrees hx t target)).bind fun y y' hy => .pure hy.some

theorem buildStruct (hg : g.Twin same) (henv : env.Twin same env') (id : NodeId)
    (nodes : List NodeId) :
    Twins same env env' (Made same) (Build.buildStruct g id nodes)
      (Build.buildStruct g id nodes) := by
  refine (typeOf henv id).bind fun t t' ht => ?_
  subst ht
  refine (structMembers henv t.name).bind fun members members' hm => ?_
  subst hm
  refine .check Iff.rfl fun _ => (values hg henv _).bind fun es es' hes => ?_
  exact (useType henv t).bind fun _ _ _ => .pure (hes.map (Expr.construct t))

theorem buildArray (hg : g.Twin same) (henv : env.Twin same env') (element : ValueType)
    (nodes : List NodeId) :
    Twins same env env' (Made same) (Build.buildArray g element nodes)
      (Build.buildArray g element nodes) := by
  refine (rule (arrayType element nodes.length)).bind fun t t' ht => ?_
  subst ht
  refine (values hg henv _).bind fun es es' hes => ?_
  exact (useType henv t).bind fun _ _ _ => .pure (hes.map (Expr.construct t))

theorem buildMember (hg : g.Twin same) (henv : env.Twin same env') (base : NodeId) (name : String) :
    Twins same env env' (Alike same Option.isSome) (Build.buildMember g base name)
      (Build.buildMember g base name) := by
  refine (typeOf henv base).bind fun t t' ht => ?_
  subst ht
  refine (memberType henv t name).discard.bind fun _ _ _ => ?_
  exact (hg.emit henv base).bind fun e e' he => .pure (he.mapOption _)

theorem checkIndex (henv : env.Twin same env') (base : ValueType) (i : NodeId) :
    Twins same env env' (fun _ _ => True) (Build.checkIndex base i) (Build.checkIndex base i) := by
  refine (resolve henv i).bind fun m m' hm => ?_
  subst hm
  refine (node henv m).bind fun n n' hn => ?_
  subst hn
  split
  · exact .ite Iff.rfl (fun _ => .fail) fun _ => .pure trivial
  · exact .pure trivial

theorem buildElement (hg : g.Twin same) (henv : env.Twin same env') {base base' : Option Expr}
    (h : Alike same Option.isSome base base') (source i : NodeId) :
    Twins same env env' (Alike same Option.isSome) (Build.buildElement g base source i)
      (Build.buildElement g base' source i) := by
  refine (typeOf henv source).bind fun t t' ht => (typeOf henv i).bind fun k k' hk => ?_
  subst ht hk
  refine (elementType t k).discard.bind fun _ _ _ => (checkIndex henv t i).bind fun _ _ _ => ?_
  refine (value hg henv i k).bind fun x x' hx => .pure ⟨?_, fun he => ?_⟩
  · rw [Option.isSome_map, Option.isSome_map, h.shape]
  · rw [h.eq he, hx he]

theorem buildIndex (hg : g.Twin same) (henv : env.Twin same env') (base i : NodeId) :
    Twins same env env' (Alike same Option.isSome) (Build.buildIndex g base i)
      (Build.buildIndex g base i) :=
  (hg.emit henv base).bind fun _ _ he => buildElement hg henv he base i

/-! ### Places -/

theorem placeBase (hg : g.Twin same) (henv : env.Twin same env') (base : NodeId) :
    Twins same env env' (Made same) (Build.placeBase g base) (Build.placeBase g base) := by
  have other : Twins same env env' (Made same) (do return (← g.place base).1)
      (do return (← g.place base).1) :=
    (hg.place henv base).bind fun _ _ h => .pure h.1
  refine (resolve henv base).bind fun m m' hm => ?_
  subst hm
  refine (node henv m).bind fun n n' hn => ?_
  subst hn
  split
  · next name element count access =>
    refine (registerStorage name element count access).bind fun b b' hb => ?_
    have access' : b.access = b'.access := (congrArg StorageEntry.access hb.shape :)
    refine (useStorage henv name hb).bind fun e e' he => ?_
    exact .check (by rw [access']) fun _ => .pure he
  · exact other

theorem placeOf (hg : g.Twin same) (henv : env.Twin same env') (id : NodeId) (type : ValueType)
    (n : Node) :
    Twins same env env' (Made same) (Build.placeOf g id type n) (Build.placeOf g id type n) := by
  have emitted : Twins same env env' (Made same) (ownPlace g id type) (ownPlace g id type) := by
    refine (hg.emit henv id).bind fun e e' he => ?_
    rcases he.option with ⟨rfl, rfl⟩ | ⟨x, x', rfl, rfl, hx⟩
    · exact .fail
    · exact .pure hx
  cases n with
  | var value name readOnly =>
    cases readOnly with
    | true => exact .fail
    | false => exact emitted
  | property name t => exact emitted
  | member base name =>
    exact (hg.place henv base).bind fun _ _ h => .pure (h.1.map fun e => Expr.member e name)
  | index base i =>
    refine (placeBase hg henv base).bind fun b b' hb => ?_
    refine (buildElement hg henv hb.some base i).bind fun e e' he => ?_
    rcases he.option with ⟨rfl, rfl⟩ | ⟨x, x', rfl, rfl, hx⟩
    · exact .fail
    · exact .pure hx
  | split base components =>
    have taken : Twins same env env' (Made same) (swizzlePlace g base components)
        (swizzlePlace g base components) := by
      refine (hg.place henv base).bind ?_
      rintro r r' ⟨hp, ht⟩
      dsimp only
      rw [ht]
      refine (rule (Swizzle.read components r'.2.components)).bind fun cs cs' hcs => .pure ?_
      exact hcs ▸ hp.map fun e => Expr.swizzle e cs
    show Twins same env env' _
      (if 1 < components.utf8ByteSize && !env.plan.options.dialect.assignsSwizzles then _ else _)
      (if 1 < components.utf8ByteSize && !env'.plan.options.dialect.assignsSwizzles then _ else _)
    by_cases hs : same
    · rw [henv.plan.options.dialect hs]
      exact .ite Iff.rfl (fun _ _ _ _ => trivial) fun _ => taken
    · split
      · exact show Twins same env env' _
          (Build.fail (DialectError.swizzleTarget env.plan.options.dialect components)) _ from
            .failLeft hs
      · split
        · exact show Twins same env env' _ _
            (Build.fail (DialectError.swizzleTarget env'.plan.options.dialect components)) from
              .failRight hs
        · exact taken
  | _ => exact .fail

theorem buildPlace (hg : g.Twin same) (henv : env.Twin same env') (id : NodeId) :
    Twins same env env' (fun r r' => Made same r.1 r'.1 ∧ r.2 = r'.2) (Build.buildPlace g id)
      (Build.buildPlace g id) := by
  refine (resolve henv id).bind fun m m' hm => ?_
  subst hm
  refine .located ((node henv m).bind fun n n' hn => ?_)
  subst hn
  refine (typeOf henv m).bind fun t t' ht => ?_
  subst ht
  exact (placeOf hg henv m t n).bind fun e e' he => .pure ⟨he, rfl⟩

theorem mutability (henv : env.Twin same env') (value : NodeId) (readOnly : Bool) :
    Twins same env env' Eq (Build.mutability value readOnly) (Build.mutability value readOnly) := by
  unfold Build.mutability
  refine .ite Iff.rfl (fun _ => .pure rfl) fun _ => (resolve henv value).bind fun m m' hm => ?_
  subst hm
  refine (node henv m).bind fun n n' hn => ?_
  subst hn
  split <;> exact .pure rfl

theorem declareVariable (henv : env.Twin same env') (id value : NodeId) (readOnly : Bool)
    {name name' : String} (hname : Made same name name') (type : ValueType) {init init' : Expr}
    (hinit : Made same init init') :
    Twins same env env' (fun _ _ => True) (Build.declareVariable id value readOnly name type init)
      (Build.declareVariable id value readOnly name' type init') := by
  refine (mutability henv value readOnly).bind fun m m' hm => ?_
  refine (recordKey henv id).bind fun key key' hkey => ?_
  subst hm hkey
  refine (addStatement henv fun he => by rw [hname he, hinit he]).bind fun _ _ _ => ?_
  exact bindName henv id hname none

theorem prepareVariable (hg : g.Twin same) (henv : env.Twin same env') (id init : NodeId)
    (name : Option String) :
    Twins same env env' (fun r r' => r.1 = r'.1 ∧ Made same r.2 r'.2)
      (Build.prepareVariable g id init name) (Build.prepareVariable g id init name) := by
  refine (typeOf henv id).bind fun t t' ht => ?_
  subst ht
  refine (value hg henv init t).bind fun x x' hx => (useType henv t).bind fun _ _ _ => ?_
  cases name with
  | some name =>
    exact (claimLocal henv (.refl name)).bind fun _ _ h => .pure ⟨rfl, hx.map₂ h Prod.mk⟩
  | none => exact (claimTemp henv).bind fun _ _ h => .pure ⟨rfl, hx.map₂ h Prod.mk⟩

theorem buildVariable (hg : g.Twin same) (henv : env.Twin same env') (id value : NodeId)
    (name : Option String) (readOnly : Bool) :
    Twins same env env' (Made same) (Build.buildVariable g id value name readOnly)
      (Build.buildVariable g id value name readOnly) := by
  refine (boundName? henv id).bind fun bound bound' hb => ?_
  rcases hb.option with ⟨rfl, rfl⟩ | ⟨x, x', rfl, rfl, hx⟩
  · refine (prepareVariable hg henv id value name).bind fun r r' ⟨htype, hr⟩ => ?_
    obtain ⟨type, init, name⟩ := r
    obtain ⟨type', init', name'⟩ := r'
    dsimp only at htype hr ⊢
    subst htype
    refine (declareVariable henv id value readOnly (hr.map Prod.snd) type (hr.map Prod.fst)).bind
      fun _ _ _ => .pure ?_
    exact hr.map fun r => Build.localName r.2
  · exact .pure (hx.map Build.localName)

theorem buildPlainAssign (hg : g.Twin same) (henv : env.Twin same env') {place place' : Expr}
    (hp : Made same place place') (type : ValueType) (id : NodeId) :
    Twins same env env' (Made same) (Build.buildPlainAssign g place type id)
      (Build.buildPlainAssign g place' type id) :=
  (value hg henv id type).bind fun _ _ h => .pure (hp.map₂ h Statement.assign)

theorem buildUpdate (hg : g.Twin same) (henv : env.Twin same env') {place place' : Expr}
    (hp : Made same place place') (type : ValueType) (op : BinaryOp) (id : NodeId) :
    Twins same env env' (Made same) (Build.buildUpdate g place type op id)
      (Build.buildUpdate g place' type op id) := by
  refine (typeOf henv id).bind fun t t' ht => ?_
  subst ht
  refine (rule (op.resultType type t)).bind fun r r' hr => ?_
  subst hr
  refine .check Iff.rfl fun _ => (value hg henv id _).bind fun e e' he => ?_
  refine .ite Iff.rfl (fun _ => .pure fun hs => ?_) fun _ => .pure fun hs => ?_
  · rw [hp hs, he hs]
  · rw [hp hs, he hs]

theorem buildAssign (hg : g.Twin same) (henv : env.Twin same env') (target id : NodeId)
    (op : Option BinaryOp) :
    Twins same env env' (fun _ _ => True) (Build.buildAssign g target id op)
      (Build.buildAssign g target id op) := by
  refine (hg.place henv target).bind fun r r' ⟨hp, ht⟩ => ?_
  obtain ⟨place, type⟩ := r
  obtain ⟨place', type'⟩ := r'
  dsimp only at hp ht ⊢
  subst ht
  cases op with
  | none => exact (buildPlainAssign hg henv hp type id).bind fun _ _ h => addStatement henv h
  | some op => exact (buildUpdate hg henv hp type op id).bind fun _ _ h => addStatement henv h

/-! ### Conditionals -/

theorem arePureFrom {p p' : Plan} (h : p.Twin same p') (fuel : Nat) (ids seen : List NodeId) :
    Build.arePureFrom p fuel ids seen = Build.arePureFrom p' fuel ids seen := by
  induction fuel generalizing ids seen with
  | zero => rfl
  | succ fuel ih =>
    cases ids with
    | nil => rfl
    | cons id rest =>
      simp only [Build.arePureFrom, h.resolve, h.node, ih]

theorem arePure (henv : env.Twin same env') (ids : List NodeId) :
    Twins same env env' Eq (Build.arePure ids) (Build.arePure ids) := by
  refine .read ?_
  dsimp only
  rw [henv.plan.graph.referenceCount, arePureFrom henv.plan]
  exact rule _

theorem buildBranch (hg : g.Twin same) (henv : env.Twin same env') {result result' : String}
    (h : Made same result result') (type : ValueType) (id : NodeId) :
    Twins same env env' (Made same) (Build.buildBranch g result type id)
      (Build.buildBranch g result' type id) :=
  inBlock henv ((value hg henv id type).bind fun _ _ he =>
    addStatement henv ((h.map Build.localName).map₂ he Statement.assign))

theorem buildChoice (hg : g.Twin same) (henv : env.Twin same env') (id : NodeId) (type : ValueType)
    {condition condition' : Expr} (h : Made same condition condition')
    (thenNode elseNode : NodeId) :
    Twins same env env' (Alike same Option.isSome)
      (Build.buildChoice g id type condition thenNode elseNode)
      (Build.buildChoice g id type condition' thenNode elseNode) := by
  refine (arePure henv _).bind fun pure pure' hpure => ?_
  subst hpure
  refine .ite Iff.rfl (fun _ => ?_) fun _ => ?_
  · refine buildTemp henv ((value hg henv thenNode type).bind fun t t' ht => ?_)
    refine (value hg henv elseNode type).bind fun e e' he => .pure (Made.some fun hs => ?_)
    rw [h hs, ht hs, he hs]
  · refine (declareTemp henv type (.refl none) .mutable).bind fun result result' hr => ?_
    refine (buildBranch hg henv hr type thenNode).bind fun t t' ht => ?_
    refine (buildBranch hg henv hr type elseNode).bind fun e e' he => ?_
    refine (addStatement henv fun hs => by rw [h hs, ht hs, he hs]).bind fun _ _ _ => ?_
    exact (bindValue henv id hr).bind fun _ _ _ => .pure (hr.map Build.localName).some

theorem buildConditional (hg : g.Twin same) (henv : env.Twin same env')
    (id condition thenNode : NodeId)
    (elseNode : Option NodeId) :
    Twins same env env' (Alike same Option.isSome)
      (Build.buildConditional g id condition thenNode elseNode)
      (Build.buildConditional g id condition thenNode elseNode) := by
  refine (boundName? henv id).bind fun bound bound' hb => ?_
  rcases hb.option with ⟨rfl, rfl⟩ | ⟨x, x', rfl, rfl, hx⟩
  · refine (typeOf henv id).bind fun type type' ht => ?_
    subst ht
    refine (value hg henv condition .bool).bind fun c c' hc => ?_
    cases elseNode with
    | none =>
      refine (inBlock henv (statement hg henv thenNode)).bind fun t t' ht => ?_
      exact (addStatement henv fun hs => by rw [hc hs, ht hs]).bind fun _ _ _ => .pure (.refl _ _)
    | some elseNode =>
      refine .ite Iff.rfl (fun _ => ?_) fun _ => buildChoice hg henv id type hc thenNode elseNode
      refine (inBlock henv (statement hg henv thenNode)).bind fun t t' ht => ?_
      refine (inBlock henv (statement hg henv elseNode)).bind fun e e' he => ?_
      exact (addStatement henv fun hs => by rw [hc hs, ht hs, he hs]).bind fun _ _ _ =>
        .pure (.refl _ _)
  · exact .pure (hx.map Build.localName).some

/-! ### Loops -/

theorem buildBound (hg : g.Twin same) (henv : env.Twin same env') (type : ValueType)
    (kind : ScalarKind) (bound : LoopBound NodeId) :
    Twins same env env' (Made same) (Build.buildBound g type kind bound)
      (Build.buildBound g type kind bound) := by
  cases bound with
  | value v => exact .pure (.refl _)
  | node id => exact value hg henv id type

theorem buildLevels (hg : g.Twin same) (henv : env.Twin same env') (id : NodeId)
    (body : Option NodeId)
    (level : Nat) (params : List (LoopParam NodeId)) :
    Twins same env env' (fun _ _ => True) (Build.buildLevels g id body level params)
      (Build.buildLevels g id body level params) := by
  induction params generalizing env env' level with
  | nil =>
    cases body with
    | some body => exact statement hg henv body
    | none => exact .pure trivial
  | cons p rest ih =>
    refine (rule (checkLevel p)).bind fun r r' hr => ?_
    subst hr
    obtain ⟨kind, step⟩ := r
    have depth : env.loops.length = env'.loops.length := by
      simpa using congrArg List.length henv.loops.shape
    refine .read ?_
    rw [depth]
    refine (claimLocal henv (.refl _)).bind fun counter counter' hc => ?_
    refine (useType henv p.type).bind fun _ _ _ => ?_
    refine (buildBound hg henv p.type kind p.start).bind fun start start' hstart => ?_
    refine (buildBound hg henv p.type kind p.stop).bind fun stop stop' hstop => ?_
    have inner : Env.Twin same { env with loops := ⟨id, level, counter⟩ :: env.loops }
        { env' with loops := ⟨id, level, counter'⟩ :: env'.loops } := by
      refine { henv with loops := ⟨?_, fun hs => by rw [hc hs, henv.loops.eq hs]⟩ }
      exact congrArg ((id, level) :: ·) henv.loops.shape
    refine (Twins.inLoop (inBlock inner (ih inner (level + 1)))).bind fun inside inside' hi => ?_
    refine (releaseLocal henv hc).bind fun _ _ _ => ?_
    exact addStatement henv fun hs => by rw [hc hs, hstart hs, hstop hs, hi hs]

theorem buildLoop (hg : g.Twin same) (henv : env.Twin same env') (id : NodeId)
    (params : List (LoopParam NodeId)) (body : Option NodeId) :
    Twins same env env' (fun _ _ => True) (Build.buildLoop g id params body)
      (Build.buildLoop g id params body) := by
  unfold Build.buildLoop
  exact .check Iff.rfl fun _ => buildLevels hg henv id body 0 params

/-- The loop that a counter belongs to is found by its node. -/
theorem activeLoop {loops loops' : List ActiveLoop}
    (h : Alike same (List.map ActiveLoop.shape) loops loops') (loop : NodeId) (param : Nat) :
    Alike same Option.isSome (loops.find? fun l => l.node = loop ∧ l.param = param)
      (loops'.find? fun l => l.node = loop ∧ l.param = param) := by
  have found : ∀ ls : List ActiveLoop,
      (ls.find? fun l => l.node = loop ∧ l.param = param).isSome =
        ((ls.map ActiveLoop.shape).find? fun l => l.1 = loop ∧ l.2 = param).isSome := by
    intro ls
    rw [List.find?_map, Option.isSome_map]
    rfl
  refine h.map (fun ls => ls.find? fun l => l.node = loop ∧ l.param = param) fun a b hab => ?_
  rw [found, found, hab]

theorem buildCounter (henv : env.Twin same env') (loop : NodeId) (param : Nat) :
    Twins same env env' (Made same) (Build.buildCounter loop param)
      (Build.buildCounter loop param) := by
  refine (resolve henv loop).bind fun m m' hm => ?_
  subst hm
  refine .read ?_
  rcases (activeLoop henv.loops m param).option with ⟨hn, hn'⟩ | ⟨l, l', hl, hl', alike⟩
  · rw [hn, hn']
    exact .fail
  · rw [hl, hl']
    exact .pure (alike.map fun l => Build.localName l.counter)

theorem buildJump (henv : env.Twin same env') (j : Jump) :
    Twins same env env' (fun _ _ => True) (Build.buildJump j) (Build.buildJump j) := by
  have loops : env.loops.isEmpty = env'.loops.isEmpty := by
    rw [← List.isEmpty_map (f := ActiveLoop.shape), henv.loops.shape, List.isEmpty_map]
  exact .read (.check (by rw [loops]) fun _ => addStatement henv (.refl _))

theorem buildStack (hg : g.Twin same) (henv : env.Twin same env') (nodes : List NodeId)
    (output : Option NodeId) :
    Twins same env env' (Alike same Option.isSome) (Build.buildStack g nodes output)
      (Build.buildStack g nodes output) := by
  refine (Twins.forM fun c _ => statement hg henv c).bind fun _ _ _ => ?_
  cases output with
  | some output => exact hg.emit henv output
  | none => exact .pure (.refl _ _)

/-! ### Calls -/

theorem buildArgument (hg : g.Twin same) (henv : env.Twin same env') (function function' : String)
    (arg : NodeId) (p : Native.Parameter) :
    Twins same env env' (Made same) (Build.buildArgument g function arg p)
      (Build.buildArgument g function' arg p) := by
  refine .ite Iff.rfl (fun _ => ?_) fun _ => value hg henv arg _
  refine (hg.place henv arg).bind fun r r' ⟨hp, ht⟩ => ?_
  exact .check (by rw [ht]) fun _ => .pure (hp.map Expr.address)

theorem buildCall (hg : g.Twin same) (henv : env.Twin same env') (id : NodeId)
    (function : FunctionId) (args : List NodeId) :
    Twins same env env' (Alike same Option.isSome) (Build.buildCall g id function args)
      (Build.buildCall g id function args) := by
  refine (boundName? henv id).bind fun bound bound' hb => ?_
  rcases hb.option with ⟨rfl, rfl⟩ | ⟨x, x', rfl, rfl, hx⟩
  · refine (registerFunction henv function).bind fun f f' hf => ?_
    have inputs : f.inputs = f'.inputs := (congrArg FunctionEntry.inputs hf.shape :)
    have result : f.result = f'.result := (congrArg FunctionEntry.result hf.shape :)
    have name : Made same f.name f'.name := fun hs => congrArg FunctionEntry.name (hf.eq hs)
    rw [inputs, result]
    refine .check Iff.rfl fun _ => (useFunction henv function).bind fun _ _ _ => ?_
    refine ((mapM (R := Made same) fun a _ => buildArgument hg henv f.name f'.name a.1 a.2).imp
      fun _ _ => Made.of_forall₂).bind fun values values' hv => ?_
    refine .ite Iff.rfl (fun _ => ?_) fun _ => ?_
    · exact (addStatement henv (name.map₂ hv Statement.call)).bind fun _ _ _ =>
        .pure (.refl _ _)
    · refine (declareTemp henv f'.result (name.map₂ hv fun n vs => some (Expr.call n vs))
        .immutable).bind
        fun name name' hn => ?_
      exact (bindValue henv id hn).bind fun _ _ _ => .pure (hn.map Build.localName).some
  · exact .pure (hx.map Build.localName).some

end Build.Twins

end ShaderGraph
