import ShaderGraph.Proofs.Collected
import ShaderGraph.Proofs.Conversions
import ShaderGraph.Proofs.Inputs

/-!
# Code made of items

Generated code consists of items: the types that it spells, or the struct values, members and elements
in it. A `CodeSupply` says which items the expressions and the types of a build consist of, which
items a state provides for, and which law the steps keep to meanwhile. `CodeSupply.Sustained` lists
what has to hold of single steps; from that all code that generation makes consists of items that
are provided for (`Sustained.generator`). How struct values, members and elements are made is left
to each supply.
-/

namespace ShaderGraph

open Build

/-! ### Expressions and their parts -/

namespace Expr

/-- The expressions that an expression is put together from. -/
def parts : Expr → List Expr
  | literal .. | reference _ => []
  | construct _ args | math _ args | call _ args => args
  | operator _ left right | remainder left right | index left right => [left, right]
  | unary _ e | swizzle e _ | member e _ | address e => [e]
  | select condition whenTrue whenFalse => [condition, whenTrue, whenFalse]
  | sample _ _ uv level => uv :: level.toList

/-- The type that an expression spells itself. -/
def ownType? : Expr → Option ValueType
  | construct type _ => some type
  | _ => none

/-- Whether an expression puts a struct together or takes something apart. -/
def isAccess : Expr → Bool
  | construct (.struct _) _ | member .. | index .. => true
  | _ => false

end Expr

/-- What code consists of, and what provides for it. -/
structure CodeSupply (γ : Type) where
  law : Law
  has : Stage → BuildState → γ → Prop
  keep : ∀ {e s s' x}, law.rel [] s s' → has e s x → has e s' x
  /-- What an expression consists of. -/
  items : Expr → List γ
  /-- What a type consists of that is spelled. -/
  spelled : ValueType → List γ
  /-- What a place consists of that was made for a node. -/
  placed : Env → NodeId → Expr × ValueType → List γ
  /-- What is known when a node was visited and gave some code, apart from what that consists of. -/
  visited : Env → NodeId → Node → Option Expr → List γ := fun _ _ _ _ => []

namespace CodeSupply

variable {α β γ : Type} (S : CodeSupply γ)

/-- What an expression consists of, if there is one. -/
def optionItems : Option Expr → List γ
  | none => []
  | some e => S.items e

/-- What some expressions consist of. -/
def itemsIn (es : List Expr) : List γ := es.flatMap S.items

/-- What a statement consists of, apart from its blocks. -/
def ownItems : Statement → List γ
  | .declare _ type init _ _ => S.spelled type ++ S.optionItems init
  | .assign place value => S.items place ++ S.items value
  | .update place _ value => S.items place ++ S.items value
  | .call _ args => S.itemsIn args
  | .jump _ => []
  | .branch condition _ _ => S.items condition
  | .loop _ type start _ stop _ _ => S.spelled type ++ (S.items start ++ S.items stop)

/-- What some statements consist of, in their blocks as well. -/
def statementItems (ss : List Statement) : List γ := Statement.collectIn S.ownItems ss

/-- What the entry point of a stage consists of. -/
def stageItems (b : StageBuild) : List γ :=
  S.statementItems b.locals ++ (b.collect S.ownItems ++ S.optionItems b.output)

/-- The states that provide for items. -/
def supply : Supply γ where
  inv := S.law.inv
  rel _ := S.law.rel []
  has env := S.has env.stage
  refl {_ s} := S.law.refl s
  trans h h' := S.law.trans h h'
  mono := S.law.mono
  keep := S.keep

/-- A step that is taken where some items are provided for makes others that are. -/
abbrev Makes (env : Env) (given : List γ) (step : Build α) (made : α → List γ) : Prop :=
  S.supply.Makes env given step made

/-- Items that are provided for wherever some others are. -/
def Follows (given made : List γ) : Prop :=
  ∀ e s, (∀ x ∈ given, S.has e s x) → ∀ x ∈ made, S.has e s x

/-- What a generator makes of nodes is provided for. -/
structure Serves (g : Generator) : Prop where
  emit : ∀ {env} id, S.Makes env [] (g.emit id) S.optionItems
  place : ∀ {env} id, S.Makes env [] (g.place id) (S.placed env id)

variable {S} {env : Env} {given given' made : List γ} {step : Build α} {makes : α → List γ}
  {makes' : β → List γ}

namespace Follows

theorem of_subset (h : made ⊆ given) : S.Follows given made := fun _ _ hg x hx => hg x (h hx)

theorem nil : S.Follows given [] := fun _ _ _ _ hx => nomatch hx

theorem append (h : S.Follows given made) (h' : S.Follows given given') :
    S.Follows given (made ++ given') := fun e s hg =>
  List.forall_mem_append.2 ⟨h e s hg, h' e s hg⟩

theorem mono (h : S.Follows given made) (hg : given ⊆ given') : S.Follows given' made :=
  fun e s hp => h e s fun x hx => hp x (hg hx)

theorem flatMap {xs : List β} {f : β → List γ} (h : ∀ x ∈ xs, S.Follows given (f x)) :
    S.Follows given (xs.flatMap f) := by
  intro e s hg y hy
  obtain ⟨x, hx, hy⟩ := List.mem_flatMap.1 hy
  exact h x hx e s hg y hy

end Follows

end CodeSupply

/-! ### Steps -/

namespace Supply.Makes

variable {α β γ : Type} {S : CodeSupply γ} {env : Env} {given : List γ} {step : Build α}
  {makes : α → List γ} {makes' : β → List γ}

theorem done {a : α} (h : S.Follows given (makes a)) : S.supply.Makes env given (Pure.pure a) makes :=
  .pure fun s => h env.stage s

/-- A step that keeps to the law and makes nothing. -/
theorem keep (h : S.law.Keeps env step) : S.supply.Makes env given step fun _ => [] :=
  fun s hs _ => (h s hs).mono (fun _ _ => trivial) fun _ _ hr => ⟨hr, fun _ hx => nomatch hx⟩

theorem keeps (ends : ∀ f, S.law.ends f) (h : S.supply.Makes env [] step makes) :
    S.law.Keeps env step :=
  fun s hs => (h s hs fun _ hx => nomatch hx).mono (fun f _ => ends f) fun _ _ hr => hr.1

/-- A step that makes nothing, and what follows. -/
theorem after {next : α → Build β} (h : S.law.Keeps env step)
    (hn : ∀ a, S.supply.Makes env given (next a) makes') :
    S.supply.Makes env given (step >>= next) makes' := .bind (.keep h) hn

/-- What follows may use what is known of a value. -/
theorem taking {P : α → Prop} {next : α → Build β} (h : S.law.Yields env step P)
    (hn : ∀ a, P a → S.supply.Makes env given (next a) makes') :
    S.supply.Makes env given (step >>= next) makes' := by
  intro s hs hp
  rw [meets_bind]
  refine (h s hs).mono (fun _ _ => trivial) fun a s' ⟨goes, ha⟩ => ?_
  exact (hn a ha s' (S.law.mono hs goes) fun x hx => S.keep goes (hp x hx)).imp fun b s'' hr =>
    ⟨S.law.trans goes hr.1, hr.2⟩

theorem ofExcept {ε : Type} [Coe ε Cause] {r : Except ε α}
    (h : ∀ a, r = .ok a → S.Follows given (makes a)) :
    S.supply.Makes env given (Build.ofExcept r) makes := by
  cases r with
  | ok a => exact .done (h a rfl)
  | error e => exact .fail

end Supply.Makes

/-! ### What stages collect -/

namespace CodeSupply

variable {γ : Type} {S : CodeSupply γ} {b : StageBuild} {x : γ}

theorem mem_stageItems_add {st : Statement} (hx : x ∈ S.stageItems (b.add st)) :
    x ∈ S.stageItems b ∨ x ∈ S.ownItems st ++ S.statementItems st.blocks := by
  have output : (b.add st).output = b.output := by
    unfold StageBuild.add
    cases b.inner <;> rfl
  unfold stageItems at hx ⊢
  rw [StageBuild.locals_add, output, List.mem_append, List.mem_append,
    StageBuild.collect_add.mem_iff, Statement.collect_eq] at hx
  simp only [List.mem_append, statementItems] at hx ⊢
  tauto

theorem stageItems_openBlock : S.stageItems b.openBlock = S.stageItems b := by
  unfold stageItems
  rw [StageBuild.collect_openBlock]
  rfl

theorem mem_stageItems_closeBlock :
    x ∈ S.stageItems b ↔ x ∈ S.statementItems b.innerStatements ∨ x ∈ S.stageItems b.closeBlock := by
  unfold stageItems
  rw [← StageBuild.collect_closeBlock]
  simp only [List.mem_append]
  exact ⟨fun h => by tauto, fun h => by tauto⟩

end CodeSupply

/-! ### What is asked for -/

namespace CodeSupply

variable {γ : Type}

/-- What code consists of is provided for, and stays so where types are found and code is added. -/
structure Composed (S : CodeSupply γ) : Prop extends S.law.Plain where
  ends : ∀ f, S.law.ends f
  /-- An ordinary expression consists of what its parts and the type that it spells consist of. -/
  parts : ∀ e : Expr, e.isAccess = false →
    S.items e ⊆ e.ownType?.toList.flatMap S.spelled ++ S.itemsIn e.parts
  /-- A type without structs may be spelled everywhere. -/
  plain : ∀ {t : ValueType} {e s}, t.heldStruct? = none → ∀ x ∈ S.spelled t, S.has e s x
  spells : ∀ {env} t, S.Makes env [] (Build.useType t) fun _ => S.spelled t
  typeOf : ∀ {env} id, S.law.Keeps env (Build.typeOf id)
  items_placed : ∀ {env id} r, S.items r.1 ⊆ S.placed env id r
  /-- What was collected is provided for. -/
  collected : ∀ {env s}, S.law.inv env s → ∀ e, ∀ x ∈ S.stageItems (s.stages.get e), S.has e s x
  /-- The code of a stage may be changed to what is provided for. -/
  modify : ∀ {s e} {f : StageBuild → StageBuild},
    (∀ b, (f b).structs = b.structs ∧ (f b).storage = b.storage) →
    (∀ x ∈ S.stageItems (f (s.stages.get e)),
      x ∈ S.stageItems (s.stages.get e) ∨ S.has e s x) →
    S.law.rel [] s { s with stages := s.stages.modify e f }

/-- What single steps of generation keep up. -/
structure Sustained (S : CodeSupply γ) : Prop extends S.Composed where
  registerFunction : ∀ {env} f, S.law.Keeps env (Build.registerFunction f)
  useFunction : ∀ {env} f, S.law.Keeps env (Build.useFunction f)
  claimLocal : ∀ {env} name, S.law.Keeps env (Build.claimLocal name)
  releaseLocal : ∀ {env} name, S.law.Keeps env (Build.releaseLocal name)
  claimTemp : ∀ {env}, S.law.Keeps env Build.claimTemp
  bindName : ∀ {env} id name frame, S.law.Keeps env (Build.bindName id name frame)
  visited : ∀ {env fuel id n}, S.Serves (generator fuel) → env.plan.resolve id = .ok id →
    env.plan.node id = .ok n → S.visited env id n ≠ (fun _ => []) →
    S.Makes env [] (generateNode (generator fuel) id n) (S.visited env id n)
  /-- A visit is logged when that is known. -/
  visit : ∀ {env s s₀ id n code}, S.law.inv env s → env.plan.node id = .ok n →
    (∀ x ∈ S.visited env id n code, S.has env.stage s x) →
    S.law.rel [] s { s with visits := visitAt env s₀ id code :: s.visits }
  inside : ∀ {env s id inner values}, S.law.inv env s →
    env.plan.node id = .ok (.context inner values) →
    S.law.rel [] s { s with frames := (s.frames.extend (Frame.current env.frames) id).2 } ∧
      S.law.inv (Build.inside env (s.frames.extend (Frame.current env.frames) id).1 values)
        { s with frames := (s.frames.extend (Frame.current env.frames) id).2 }
  lent : ∀ {env s key c outer}, S.law.inv env s → Frame.lookup? key env.frames = some (c, outer) →
    S.law.inv { env with frames := outer } s
  scope : ∀ {env s} id shares, S.law.inv env s →
    S.law.rel [] s { s with cache := (s.cache.scopeFor env.scope id shares).2 } ∧
      S.law.inv { env with scope := (s.cache.scopeFor env.scope id shares).1 }
        { s with cache := (s.cache.scopeFor env.scope id shares).2 }
  varying : ∀ {env fuel id source name interpolation sampling}, S.Serves (generator fuel) →
    env.plan.node id = .ok (.varying source name interpolation sampling) →
    S.Makes env [] (buildVarying (generator fuel) id source name interpolation sampling) S.items
  join : ∀ {env fuel id parts type}, S.Serves (generator fuel) → env.plan.resolve id = .ok id →
    env.plan.node id = .ok (.join parts type) →
    S.Makes env [] (buildJoin (generator fuel) id parts) S.items
  struct : ∀ {env fuel id layout values}, S.Serves (generator fuel) →
    env.plan.resolve id = .ok id → env.plan.node id = .ok (.struct layout values) →
    S.Makes env [] (buildStruct (generator fuel) id values) S.items
  member : ∀ {env fuel id base name}, S.Serves (generator fuel) →
    env.plan.node id = .ok (.member base name) →
    S.Makes env [] (buildMember (generator fuel) base name) S.optionItems
  index : ∀ {env fuel id base i}, S.Serves (generator fuel) →
    env.plan.node id = .ok (.index base i) →
    S.Makes env [] (buildIndex (generator fuel) base i) S.optionItems
  place : ∀ {env fuel id}, S.Serves (generator fuel) →
    S.Makes env [] (buildPlace (generator fuel) id) (S.placed env id)

variable {S : CodeSupply γ} {env : Env} {given : List γ} {id : NodeId} {g : Generator}

@[simp] theorem optionItems_none : S.optionItems none = [] := rfl

@[simp] theorem optionItems_some (e : Expr) : S.optionItems (some e) = S.items e := rfl

namespace Serves

variable (hg : S.Serves g)

include hg

theorem emitted (id : NodeId) : S.Makes env given (g.emit id) S.optionItems :=
  (hg.emit id).mono (List.nil_subset _)

theorem statement (id : NodeId) : S.Makes env given (g.statement id) fun _ => [] :=
  .discard (hg.emitted id)

end Serves

namespace Composed

variable (h : S.Composed)

include h

/-! ### Expressions -/

/-- An ordinary expression is provided for when its parts and its type are. -/
theorem follows {e : Expr} (he : e.isAccess = false)
    (ht : ∀ t ∈ e.ownType?, S.Follows given (S.spelled t))
    (hp : ∀ x ∈ e.parts, S.Follows given (S.items x)) : S.Follows given (S.items e) := by
  refine fun t s hg x hx => ?_
  rcases List.mem_append.1 (h.parts e he hx) with hx | hx
  · exact Follows.flatMap (fun t ht' => ht t (Option.mem_toList.1 ht')) t s hg x hx
  · exact Follows.flatMap hp t s hg x hx

/-- What an expression without parts consists of. -/
theorem atom {e : Expr} (he : e.isAccess = false) (ht : e.ownType? = none) (hp : e.parts = []) :
    S.Follows given (S.items e) :=
  h.follows he (fun t hs => by rw [ht] at hs; cases hs) fun x hx => by rw [hp] at hx; cases hx

/-- What an expression of one part consists of. -/
theorem one {e x : Expr} (he : e.isAccess = false) (ht : e.ownType? = none) (hp : e.parts = [x])
    (hx : S.items x ⊆ given) : S.Follows given (S.items e) :=
  h.follows he (fun t hs => by rw [ht] at hs; cases hs) fun _ hy => by
    rw [hp, List.mem_singleton] at hy
    exact hy ▸ .of_subset hx

/-- What an expression of two parts consists of. -/
theorem two {e x y : Expr} (he : e.isAccess = false) (ht : e.ownType? = none)
    (hp : e.parts = [x, y]) (hx : S.items x ⊆ given) (hy : S.items y ⊆ given) :
    S.Follows given (S.items e) :=
  h.follows he (fun t hs => by rw [ht] at hs; cases hs) fun z hz => by
    rw [hp, List.mem_pair] at hz
    rcases hz with rfl | rfl
    · exact .of_subset hx
    · exact .of_subset hy

/-- What an expression of a list of parts consists of. -/
theorem all {e : Expr} {es : List Expr} (he : e.isAccess = false)
    (ht : ∀ t ∈ e.ownType?, S.Follows given (S.spelled t)) (hp : e.parts = es)
    (hes : S.itemsIn es ⊆ given) : S.Follows given (S.items e) :=
  h.follows he ht fun x hx => .of_subset fun _ hy =>
    hes (List.mem_flatMap.2 ⟨x, hp ▸ hx, hy⟩)

/-- A constructor of a type without structs. -/
theorem construct {type : ValueType} {args : List Expr} (ht : type.heldStruct? = none)
    (ha : ∀ a ∈ args, S.Follows given (S.items a)) : S.Follows given (S.items (.construct type args)) := by
  refine h.follows ?_ (fun t hs => ?_) ha
  · cases type with
    | struct name => cases ht
    | _ => rfl
  · cases Option.mem_some_iff.1 hs
    exact fun _ _ _ => h.plain ht

/-- A conversion makes no struct values and takes nothing apart. -/
theorem coerce {e e' : Expr} {source target : ValueType} (he : e.coerce source target = .ok e') :
    S.Follows (S.items e) (S.items e') :=
  Expr.coerce_induction (P := fun x => S.Follows (S.items e) (S.items x))
    (fun _ _ => h.construct) (.of_subset (List.Subset.refl _)) he

theorem convert {e e' : Expr} {source target : ValueType} (he : e.convert source target = .ok e') :
    S.Follows (S.items e) (S.items e') := by
  refine Expr.convert_induction (P := fun x => S.Follows (S.items e) (S.items x))
    (fun _ _ => h.construct) (fun x cs hx => ?_) (fun _ _ => h.atom rfl rfl rfl)
    (.of_subset (List.Subset.refl _)) he
  exact fun t s hg => h.one rfl rfl rfl (List.Subset.refl _) t s (hx t s hg)

/-! ### Values -/

section

variable (hg : S.Serves g)

include hg

/-- A place, of which only the code matters. -/
theorem placeOf (id : NodeId) : S.Makes env given (g.place id) fun r => S.items r.1 := by
  intro s hs _
  refine (hg.place id s hs fun _ hx => nomatch hx).imp fun r s' hr => ⟨hr.1, fun x hx => ?_⟩
  exact hr.2 x (h.items_placed r hx)

theorem value (id : NodeId) (target : ValueType) :
    S.Makes env given (g.value id target) S.items := by
  refine .resolve fun m _ => .located (.bind (hg.emitted m) fun e => .after (h.typeOf m) fun type => ?_)
  cases e with
  | none => exact .fail
  | some e =>
    refine .check (.ofExcept fun e' he => ?_)
    exact (h.coerce he).mono (List.subset_append_left _ _)

theorem values (ids : List (NodeId × ValueType)) : S.Makes env given (g.values ids) S.itemsIn :=
  .mapM fun v _ => h.value hg v.1 v.2

end

/-! ### Statements -/

/-- A statement may be added if what it consists of is provided for. -/
theorem add {st : Statement} (hs : S.Follows given (S.ownItems st ++ S.statementItems st.blocks)) :
    S.Makes env given (addStatement st) fun _ => [] := by
  intro s _ hp
  refine ⟨h.modify (fun b => ?_) fun x hx => ?_, nofun⟩
  · unfold StageBuild.add
    cases b.inner <;> exact ⟨rfl, rfl⟩
  · exact (mem_stageItems_add hx).imp_right (hs _ s hp x)

/-- A value is assigned to a place that is provided for. -/
theorem write (hg : S.Serves g) (place : Expr) (type : ValueType) (value : NodeId)
    (op : Option BinaryOp) :
    S.Makes env (S.items place ++ given)
      (match op with
        | none => do addStatement (← buildPlainAssign g place type value)
        | some op => do addStatement (← buildUpdate g place type op value)) fun _ => [] := by
  cases op with
  | none =>
    have plain : S.Makes env (S.items place ++ given) (buildPlainAssign g place type value)
        fun st => S.ownItems st ++ S.statementItems st.blocks := by
      refine .bind (h.value hg value _) fun e => .done (.of_subset fun x hx => ?_)
      simp only [ownItems, statementItems, Statement.blocks, Statement.collectIn,
        List.append_nil, List.mem_append] at hx ⊢
      tauto
    exact .bind plain fun st => h.add (.of_subset (List.subset_append_left _ _))
  | some op =>
    have update : S.Makes env (S.items place ++ given) (buildUpdate g place type op value)
        fun st => S.ownItems st ++ S.statementItems st.blocks := by
      refine .after (h.typeOf value) fun t => .rule fun result _ => .check ?_
      refine .bind (h.value hg value _) fun e => .ite (fun _ => .done ?_) fun _ => .done ?_
      · refine .append (.append ?_ (h.two rfl rfl rfl ?_ ?_)) .nil
        · exact .of_subset fun x hx => by simp [hx]
        all_goals exact fun x hx => by simp [hx]
      · refine .append (.append ?_ ?_) .nil
        all_goals exact .of_subset fun x hx => by simp [hx]
    exact .bind update fun st => h.add (.of_subset (List.subset_append_left _ _))

/-- What the statements of a block consist of is provided for when the block was closed. -/
theorem inBlock {step : Build Unit} (hs : S.Makes env given step fun _ => []) :
    S.Makes env given (inBlock step) S.statementItems := by
  intro s hi hp
  unfold Build.inBlock
  rw [meets_bind, meets_modifyHere, meets_bind]
  have opened : S.law.rel [] s
      { s with stages := s.stages.modify env.stage StageBuild.openBlock } :=
    h.modify (fun _ => ⟨rfl, rfl⟩) fun _ hx => .inl (stageItems_openBlock ▸ hx)
  refine (hs _ (S.law.mono hi opened) fun x hx => S.keep opened (hp x hx)).imp fun _ s' hr => ?_
  rw [meets_bind, meets_here, meets_bind, meets_modifyHere, meets_pure]
  have whole : S.law.rel [] s s' := S.law.trans opened hr.1
  have closed : S.law.rel [] s'
      { s' with stages := s'.stages.modify env.stage StageBuild.closeBlock } :=
    h.modify (fun _ => ⟨rfl, rfl⟩) fun _ hx => .inl (mem_stageItems_closeBlock.2 (.inr hx))
  refine ⟨S.law.trans whole closed, fun x hx => S.keep closed ?_⟩
  exact h.collected (S.law.mono hi whole) _ x (mem_stageItems_closeBlock.2 (.inl hx))

/-- The value of the entry point is set. -/
theorem output (e : Option Expr) :
    S.Makes env (S.optionItems e ++ given) (modifyHere fun b => { b with output := e }) fun _ => [] := by
  intro s _ hp
  refine ⟨h.modify (fun _ => ⟨rfl, rfl⟩) fun x hx => ?_, nofun⟩
  unfold stageItems at hx ⊢
  simp only [List.mem_append] at hx ⊢
  rcases hx with hx | hx | hx
  · exact .inl (.inl hx)
  · exact .inl (.inr (.inl hx))
  · exact .inr (hp x (List.mem_append_left _ hx))

/-! ### Storage buffers -/

/-- A storage buffer is entered and used. -/
theorem storage_made {α : Type} {name : String} {element : ValueType} {count : Option UInt32}
    {access : Access} {next : StorageEntry → Expr → Build α} {makes : α → List γ}
    (hn : ∀ b r, S.Makes env given (next b (.reference r)) makes) : S.Makes env given (do
      let b ← registerStorage name element count access
      let e ← useStorage name b
      next b e) makes := by
  intro s hs hp
  rw [meets_bind]
  refine ((h.toPlain.registerStorage name element count access hs).mono (fun _ _ => trivial)
    fun _ _ hr => hr).imp fun b s₁ ⟨goes, hb⟩ => ?_
  rw [meets_bind]
  have hs₁ := S.law.mono hs goes
  refine (((h.toPlain.useStorage name b hs₁ hb).mono (fun _ _ => trivial) fun _ _ hr => hr).and
    (useStorage_reference name b env s₁)).imp ?_
  rintro _ s₂ ⟨goes', rfl⟩
  have whole := S.law.trans goes goes'
  exact (hn b _ s₂ (S.law.mono hs₁ goes') fun x hx => S.keep whole (hp x hx)).imp
    fun _ _ hr => ⟨S.law.trans whole hr.1, hr.2⟩

end Composed

namespace Sustained

variable (h : S.Sustained)

include h

/-! ### Expressions -/

/-- Where a type is used, what it consists of is provided for. -/
theorem useType_made (t : ValueType) : S.Makes env given (useType t) fun _ => S.spelled t :=
  (h.spells t).mono (List.nil_subset _)

theorem reference (r : Reference) : S.Follows given (S.items (.reference r)) :=
  h.atom rfl rfl rfl

theorem constant_made (type : ValueType) (values : List Float) :
    S.Makes env given (buildConstant type values) S.items := by
  have literals : ∀ a ∈ (constantComponents type values).map
      (Expr.literal (type.scalarKind.getD .float)), S.Follows given (S.items a) := by
    intro a ha
    obtain ⟨v, -, rfl⟩ := List.mem_map.1 ha
    exact h.atom rfl rfl rfl
  have build : type.heldStruct? = none → S.Makes env given (do
      let kind := type.scalarKind.getD .float
      let literals := (constantComponents type values).map (Expr.literal kind)
      if type.isScalar then return literals.headD default
      useType type
      return .construct type literals) S.items := by
    refine fun held => .ite (fun _ => .done ?_) fun _ => ?_
    · cases hl : (constantComponents type values).map
          (Expr.literal (type.scalarKind.getD .float)) with
      | nil => exact h.atom rfl rfl rfl
      | cons a rest => exact literals a (hl ▸ .head _)
    · exact .after (h.toPlain.useType type) fun _ => .done (h.construct held literals)
  intro s hs hp
  unfold buildConstant
  rw [meets_bind, meets_discard, meets_ofExcept]
  split
  · next t typed => exact build (heldStruct?_of_constantType typed) s hs hp
  · trivial

section

variable (hg : S.Serves g)

include hg

theorem texture_made (name : String) (uv : NodeId) (level : Option NodeId) :
    S.Makes env given (buildTexture g name uv level) S.items := by
  have level : ∀ {given}, S.Makes env given (buildLevel g level) S.optionItems := by
    intro given
    cases level with
    | some level => exact .map _ (h.value hg level .float)
    | none =>
      refine .after .stage fun t => .done ?_
      split
      · exact .nil
      · exact h.atom rfl rfl rfl
  refine .bind (h.value hg uv .vec2) fun uv => .bind level fun level =>
    .after (h.toPlain.useTexture name) fun t => .done ?_
  have parts : (Expr.sample t.name t.sampler uv level).parts = uv :: level.toList := rfl
  refine h.all rfl nofun parts ?_
  cases level with
  | none => exact fun _ hx => by simp_all [itemsIn]
  | some level => exact fun _ hx => by simp_all [itemsIn, or_comm, or_assoc]

theorem operator_made (op : BinaryOp) (left right : NodeId) :
    S.Makes env given (buildOperator g op left right) S.items := by
  refine .after (h.typeOf left) fun l => .after (h.typeOf right) fun r => .rule fun result _ => ?_
  refine .bind (h.value hg left _) fun left => .bind (h.value hg right _) fun right => ?_
  refine .ite (fun _ => .done (h.two rfl rfl rfl ?_ ?_)) fun _ => .done (h.two rfl rfl rfl ?_ ?_)
  all_goals exact fun _ hx => by simp [hx]

omit hg in
/-- What a step makes of a single expression. -/
theorem map_made {e : Option Expr} {f : Expr → Expr} (ha : ∀ e, (f e).isAccess = false)
    (ht : ∀ e, (f e).ownType? = none) (hp : ∀ e, (f e).parts = [e]) :
    S.Follows (S.optionItems e ++ given) (S.optionItems (e.map f)) := by
  cases e with
  | none => exact .nil
  | some e => exact h.one (ha e) (ht e) (hp e) (List.subset_append_left _ _)

theorem unary_made (op : UnaryOp) (operand : NodeId) :
    S.Makes env given (buildUnary g op operand) S.optionItems := by
  refine .after (h.typeOf operand) fun type => .after (.discard (.ofExcept fun _ _ => rfl)) fun _ => ?_
  exact .bind (hg.emitted operand) fun e =>
    .done (h.map_made (fun _ => rfl) (fun _ => rfl) fun _ => rfl)

theorem math_made (id : NodeId) (m : MathMethod) (args : List NodeId) :
    S.Makes env given (buildMath g id m args) S.items := by
  refine .after .stage fun t => .check (.after (h.typeOf id) fun result => ?_)
  refine .after (.mapM fun c _ => h.typeOf c) fun types => .rule fun targets _ => ?_
  exact .bind (h.values hg _) fun es => .done (h.all rfl nofun rfl (List.subset_append_left _ _))

theorem split_made (source : NodeId) (components : String) :
    S.Makes env given (buildSplit g source components) S.optionItems := by
  refine .after (h.typeOf source) fun type => .after (.discard (.ofExcept fun _ _ => rfl)) fun _ => ?_
  refine .rule fun cs _ => .bind (hg.emitted source) fun e => ?_
  exact .done (h.map_made (fun _ => rfl) (fun _ => rfl) fun _ => rfl)

theorem convert_made (source : NodeId) (target : ValueType) :
    S.Makes env given (buildConvert g source target) S.optionItems := by
  refine .after (h.typeOf source) fun type => .bind (hg.emitted source) fun e => ?_
  cases e with
  | some e =>
    refine .map some (.ofExcept fun e' he => ?_)
    exact (h.convert he).mono (List.subset_append_left _ _)
  | none => exact .check (.done .nil)

omit hg in
/-- An ordinary constructor where its type is spelled and its arguments are provided for. -/
theorem spelled_construct {type : ValueType} {args : List Expr}
    (hc : (Expr.construct type args).isAccess = false) :
    S.Follows (S.spelled type ++ (S.itemsIn args ++ given)) (S.items (.construct type args)) := by
  have parts : (Expr.construct type args).parts = args := rfl
  refine h.all hc (fun t ht => .of_subset ?_) parts fun _ hx => by simp [hx]
  cases Option.mem_some_iff.1 ht
  exact List.subset_append_left _ _

theorem array_made (element : ValueType) (values : List NodeId) :
    S.Makes env given (buildArray g element values) S.items := by
  refine .rule fun type typed => .bind (h.values hg _) fun es =>
    .bind (h.useType_made type) fun _ => .done (h.spelled_construct ?_)
  unfold arrayType at typed
  split at typed
  · cases typed
  · split at typed
    · cases typed
    · cases typed
    · cases typed
      rfl

end

/-! ### Inputs -/

/-- A step that makes a reference. -/
theorem refer {step : Build Expr} (hs : S.law.Keeps env step)
    (hr : Returns (fun e => ∃ r, e = .reference r) step) : S.Makes env given step S.items := by
  intro s hi hp
  refine ((hs s hi).mono (fun _ _ => trivial) fun _ _ hr => hr).and (hr env s) |>.imp ?_
  rintro _ s' ⟨goes, r, rfl⟩
  exact ⟨goes, h.reference r env.stage s' fun x hx => S.keep goes (hp x hx)⟩

theorem property_made (name : String) (type : ValueType) :
    S.Makes env given (buildProperty name type) S.items := by
  refine h.refer (h.toPlain.property name type) (.bind fun b => ?_)
  split
  · exact .when fun _ => .pure ⟨_, rfl⟩
  · exact .bind fun _ => .bind fun _ => .bind fun _ => .pure ⟨_, rfl⟩

theorem uniform_made (id : NodeId) (name : String) (type : ValueType) (group : Option String)
    (update : Cadence) (value : List Float32) :
    S.Makes env given (generateNode g id (.uniform name type group update value))
      S.optionItems := by
  refine .after (h.toPlain.registerUniform id name type group update value) fun r => .map some ?_
  refine h.refer (h.toPlain.useUniform r.1 r.2) (.bind fun g => ?_)
  exact .ite (.bind fun _ => .bind fun _ => .bind fun _ => .pure ⟨_, rfl⟩)
    (.bind fun _ => .pure ⟨_, rfl⟩)

theorem attribute_made (name : String) (type : Option ValueType) :
    S.Makes env given (buildAttribute name type) S.items := by
  refine h.refer (.buildAttribute h.toPlain name type) (.bind fun t => .when fun _ => .bind fun a => ?_)
  exact .ite (.bind fun _ => .bind fun _ => .pure ⟨_, rfl⟩) (.bind fun _ => .pure ⟨_, rfl⟩)

theorem builtin_made (b : Builtin) : S.Makes env given (useBuiltin b) S.items :=
  h.refer (h.toPlain.useBuiltin b) (.bind fun _ => .when fun _ => .bind fun _ => .pure ⟨_, rfl⟩)

theorem buffer_made (name : String) (element : ValueType) (count : Option UInt32)
    (access : Access) : S.Makes env given (buildStorage name element count access) S.items := by
  have use : S.Makes env given (registerStorage name element count access >>= fun b =>
      useStorage name b >>= pure) S.items := h.storage_made fun b r => .done (h.reference r)
  simp only [bind_pure] at use
  exact use

end Sustained

end CodeSupply

end ShaderGraph
