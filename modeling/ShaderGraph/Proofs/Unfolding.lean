import Mathlib.Data.Nat.Find
import ShaderGraph.Build.Run
import ShaderGraph.Proofs.Evaluation

/-!
# Unfolding of graphs

A partial function that is given by what it does with its own results: `leastFixed step` is what
the finite approximations of it agree on. It is a fixed point of `step` if every result of `step`
uses finitely many results only (`Finitary`); what holds of all results of `step` that use results
of which it holds, holds of the results of the fixed point.

What a graph means apart from any build: `Plan.typeIn` is the type of a node under the context
nodes around it, and `Plan.unfolded` the expression that is left when every node is replaced by
what it stands for. A context value is replaced by the innermost value that a context lends under
its key, unfolded where that context stands, else by its own.

`Code.Reads` undoes the sharing of generated code: it replaces each name that the code gives to a
value by that value.
-/

namespace ShaderGraph

/-! ## Recursion without a bound -/

section LeastFixed

variable {α β γ δ : Type}

/-- Every result comes from finitely many results of the function that is handed in. -/
def Finitary (G : (α → Option β) → Option γ) : Prop :=
  ∀ f c, G f = some c →
    ∃ used : List α, ∀ g, (∀ a ∈ used, ∀ b, f a = some b → g a = some b) → G g = some c

namespace Finitary

theorem const (c : Option γ) : Finitary fun _ : α → Option β => c :=
  fun _ _ h => ⟨[], fun _ _ => h⟩

theorem apply (a : α) : Finitary fun f : α → Option β => f a :=
  fun _ b h => ⟨[a], fun _ hg => hg a (.head _) b h⟩

theorem bind {G : (α → Option β) → Option γ} {H : γ → (α → Option β) → Option δ} (hG : Finitary G)
    (hH : ∀ c, Finitary (H c)) : Finitary fun f => (G f).bind fun c => H c f := by
  intro f d h
  obtain ⟨c, hc, hd⟩ := Option.bind_eq_some_iff.1 h
  obtain ⟨used, hG⟩ := hG f c hc
  obtain ⟨used', hH⟩ := hH c f d hd
  refine ⟨used ++ used', fun g hg => Option.bind_eq_some_iff.2 ⟨c, hG g ?_, hH g ?_⟩⟩
  · exact fun a ha => hg a (List.mem_append_left _ ha)
  · exact fun a ha => hg a (List.mem_append_right _ ha)

theorem mapM {G : γ → (α → Option β) → Option δ} (hG : ∀ c, Finitary (G c)) (cs : List γ) :
    Finitary fun f => cs.mapM fun c => G c f := by
  induction cs with
  | nil => exact const (some [])
  | cons c rest ih =>
    simp only [List.mapM_cons]
    exact bind (hG c) fun d => bind ih fun ds => const (some (d :: ds))

/-- More results of the function that is handed in leave the results as they are. -/
theorem mono {G : (α → Option β) → Option γ} (hG : Finitary G) {f g : α → Option β}
    (hfg : ∀ a b, f a = some b → g a = some b) {c : γ} (h : G f = some c) : G g = some c := by
  obtain ⟨used, hG⟩ := hG f c h
  exact hG g fun a _ => hfg a

end Finitary

variable {step : (α → Option β) → α → Option β}

/-- What is found with at most so many steps, each from the results of the steps before. -/
def approximation (step : (α → Option β) → α → Option β) : Nat → α → Option β
  | 0 => fun _ => none
  | n + 1 => step (approximation step n)

theorem approximation_succ (hs : ∀ a, Finitary fun f => step f a) {n : Nat} :
    ∀ {a b}, approximation step n a = some b → approximation step (n + 1) a = some b := by
  induction n with
  | zero => exact fun h => absurd h (Option.some_ne_none _).symm
  | succ n ih => exact fun {a _} h => (hs a).mono (fun _ _ => ih) h

theorem approximation_mono (hs : ∀ a, Finitary fun f => step f a) {n m : Nat} (hnm : n ≤ m) {a : α}
    {b : β} (h : approximation step n a = some b) : approximation step m a = some b := by
  induction hnm with
  | refl => exact h
  | step _ ih => exact approximation_succ hs ih

open Classical in
/-- What is found with enough steps. -/
noncomputable def leastFixed (step : (α → Option β) → α → Option β) (a : α) : Option β :=
  if h : ∃ n, (approximation step n a).isSome then approximation step (Nat.find h) a else none

theorem leastFixed_eq_some_iff (hs : ∀ a, Finitary fun f => step f a) {a : α} {b : β} :
    leastFixed step a = some b ↔ ∃ n, approximation step n a = some b := by
  classical
  constructor
  · intro h
    rw [leastFixed] at h
    split at h
    · exact ⟨_, h⟩
    · cases h
  · rintro ⟨n, hn⟩
    have some : ∃ n, (approximation step n a).isSome := ⟨n, by rw [hn]; rfl⟩
    obtain ⟨c, hc⟩ := Option.isSome_iff_exists.1 (Nat.find_spec some)
    rw [leastFixed, dif_pos some]
    exact hc.trans ((approximation_mono hs (Nat.find_min' some (by rw [hn]; rfl)) hc).symm.trans hn)

/-- What is found is found by one more step. -/
theorem leastFixed_eq (hs : ∀ a, Finitary fun f => step f a) (a : α) :
    leastFixed step a = step (leastFixed step) a := by
  refine Option.ext fun b => ⟨fun h => ?_, fun h => ?_⟩
  · obtain ⟨n, hn⟩ := (leastFixed_eq_some_iff hs).1 h
    exact (hs a).mono (fun _ _ hb => (leastFixed_eq_some_iff hs).2 ⟨n, hb⟩)
      (approximation_succ hs hn)
  · obtain ⟨used, hused⟩ := hs a _ b h
    -- one number of steps is enough for all results that are used
    have enough : ∃ n, ∀ a ∈ used, ∀ b, leastFixed step a = some b →
        approximation step n a = some b := by
      clear hused h
      induction used with
      | nil => exact ⟨0, fun a ha => absurd ha List.not_mem_nil⟩
      | cons a' rest ih =>
        obtain ⟨n, hn⟩ := ih
        cases ha' : leastFixed step a' with
        | none =>
          refine ⟨n, fun a ha b hb => ?_⟩
          rcases List.mem_cons.1 ha with rfl | ha
          · rw [ha'] at hb
            cases hb
          · exact hn a ha b hb
        | some b' =>
          obtain ⟨m, hm⟩ := (leastFixed_eq_some_iff hs).1 ha'
          refine ⟨n + m, fun a ha b hb => ?_⟩
          rcases List.mem_cons.1 ha with rfl | ha
          · cases ha'.symm.trans hb
            exact approximation_mono hs (Nat.le_add_left m n) hm
          · exact approximation_mono hs (Nat.le_add_right n m) (hn a ha b hb)
    obtain ⟨n, hn⟩ := enough
    exact (leastFixed_eq_some_iff hs).2 ⟨n + 1, hused _ hn⟩

/-- What one step keeps, holds of all that is found. -/
theorem leastFixed_induct (hs : ∀ a, Finitary fun f => step f a) {motive : α → β → Prop}
    (h : ∀ f, (∀ a b, f a = some b → motive a b) → ∀ a b, step f a = some b → motive a b) {a : α}
    {b : β} (hb : leastFixed step a = some b) : motive a b := by
  obtain ⟨n, hn⟩ := (leastFixed_eq_some_iff hs).1 hb
  induction n generalizing a b with
  | zero => cases hn
  | succ n ih =>
    exact h _ (fun a b hb => ih ((leastFixed_eq_some_iff hs).2 ⟨n, hb⟩) hb) a b hn

end LeastFixed

/-! ## Unfolding -/

/-- How programs refer to what they declare outside of their entry points. -/
structure Naming where
  /-- What stands for an input in a stage. -/
  input? : Stage → Node → Option Reference
  /-- The names of a texture and of its sampler. -/
  texture? : String → Option (String × String)
  /-- The name of the varying of a node. -/
  varying? : NodeId → Option String

namespace Plan

/-- The node that is built in the place of `id`. -/
def built? (p : Plan) (id : NodeId) : Option (NodeId × Node) := do
  let m ← (p.resolve id).toOption
  return (m, ← (p.node m).toOption)

/-! ### Types -/

/-- The type of the structs with a layout. -/
def layoutType? (p : Plan) (layout : NodeId) : Option ValueType := do
  match ← p.built? layout with
  | (_, .structType name _) => return .struct name
  | _ => none

/-- The type of a member of a struct. -/
def memberType? (p : Plan) (name : String) : ValueType → Option ValueType
  | .struct s => do
    let members ← p.structs.get? s
    return (← members.find? fun m => m.name = name).type
  | _ => none

/-- The type of a node under the context nodes `around`, innermost first, if `typeIn` gives the types
of other nodes. -/
def typeStep (p : Plan) (typeIn : List NodeId → NodeId → Option ValueType) (around : List NodeId)
    (id : NodeId) : Option ValueType := do
  let (m, n) ← p.built? id
  match n with
  | .const type values => (constantType type values).toOption
  | .uniform _ type .. | .property _ type => return type
  | .meshAttribute name type => type.or (p.options.attributes.get? name)
  | .builtin b => return b.type
  | .texture .. => return .vec4
  | .storageBuffer _ element count _ => return .array element (count.getD 0)
  | .varying source .. | .cache source _ => typeIn around source
  | .operator op left right =>
    (op.resultType (← typeIn around left) (← typeIn around right)).toOption
  | .unary op operand => (op.resultType (← typeIn around operand)).toOption
  | .math method args =>
    (method.resultType (← args.mapM fun a => typeIn around a)).toOption
  | .split source components =>
    (Swizzle.resultType (← typeIn around source) components).toOption
  | .join parts explicit =>
    (joinType (← parts.mapM fun a => typeIn around a) explicit).toOption
  | .convert _ target => return target
  | .conditional _ thenNode (some _) => typeIn around thenNode
  | .stack _ (some output) => typeIn around output
  | .conditional _ _ none | .stack _ none | .jump _ => return .void
  | .structType name _ => return .struct name
  | .struct layout _ => p.layoutType? layout
  | .array element values => (arrayType element values.length).toOption
  | .member base name => p.memberType? name (← typeIn around base)
  | .index base _ => (← typeIn around base).element?
  | .context inner _ => typeIn (m :: around) inner
  | .contextValue key fallback =>
    match p.lookup? key around, fallback with
    | some (value, outer), _ => typeIn outer value
    | none, some value => typeIn around value
    | none, none => none
  | .var .. | .assign .. | .loop .. | .loopIndex .. | .call .. | .remap .. | .custom _ => none

/-- The type of a node under the context nodes `around`, innermost first. -/
noncomputable def typeIn (p : Plan) (around : List NodeId) (id : NodeId) : Option ValueType :=
  leastFixed (fun f σ => p.typeStep (fun around id => f (around, id)) σ.1 σ.2) (around, id)

/-! ### Values -/

/-- A constant. -/
def constant (type : ValueType) (values : List Float) : Expr :=
  let literals := (Build.constantComponents type values).map
    (Expr.literal (type.scalarKind.getD .float))
  if type.isScalar then literals.headD default else .construct type literals

/-- An expression for a node, as one of type `target`. -/
noncomputable def brought (p : Plan) (around : List NodeId) (id : NodeId) (target : ValueType)
    (e : Expr) : Option Expr := do
  (e.coerce (← p.typeIn around id) target).toOption

/-- What a node stands for in a stage, under the context nodes `around`, innermost first, if
`unfolded` says what other nodes stand for. -/
noncomputable def unfoldedStep (p : Plan) (names : Naming)
    (unfolded : Stage → List NodeId → NodeId → Option Expr) (stage : Stage) (around : List NodeId)
    (id : NodeId) : Option Expr := do
  let (m, n) ← p.built? id
  match n with
  | .const type values => return constant type values
  | .uniform .. | .meshAttribute .. | .property .. | .builtin _ | .storageBuffer .. =>
    return .reference (← names.input? stage n)
  | .varying source .. => unfolded .vertex around source
  | .texture name uv level =>
    let t ← names.texture? name
    let uv ← p.brought around uv .vec2 (← unfolded stage around uv)
    match level with
    | some level =>
      let level ← p.brought around level .float (← unfolded stage around level)
      return .sample t.1 t.2 uv (some level)
    | none =>
      return .sample t.1 t.2 uv (if stage = .fragment then none else some (.literal .float 0))
  | .operator op left right =>
    let result ← p.typeIn around m
    let targets := op.operandTypes (← p.typeIn around left) (← p.typeIn around right) result
    let left ← p.brought around left targets.1 (← unfolded stage around left)
    let right ← p.brought around right targets.2 (← unfolded stage around right)
    return if op = .rem && result.scalarKind = some .float then .remainder left right
      else .operator op left right
  | .unary op operand => return .unary op (← unfolded stage around operand)
  | .math method args =>
    let types ← args.mapM fun a => p.typeIn around a
    let targets ← (method.argumentTypes types (← p.typeIn around m)).toOption
    let args ← (args.zip targets).mapM fun a => do
      p.brought around a.1 a.2 (← unfolded stage around a.1)
    return .math method args
  | .split source components =>
    let type ← p.typeIn around source
    let cs ← (Swizzle.read components type.components).toOption
    return .swizzle (← unfolded stage around source) cs
  | .join parts _ =>
    let type ← p.typeIn around m
    let kind := type.scalarKind.getD .float
    let parts ← parts.mapM fun a => do
      let target := (← p.typeIn around a).recast kind
      p.brought around a target (← unfolded stage around a)
    return .construct type parts
  | .convert source target =>
    let type ← p.typeIn around source
    ((← unfolded stage around source).convert type target).toOption
  | .conditional condition thenNode (some elseNode) =>
    let type ← p.typeIn around m
    let c ← p.brought around condition .bool (← unfolded stage around condition)
    let t ← p.brought around thenNode type (← unfolded stage around thenNode)
    let e ← p.brought around elseNode type (← unfolded stage around elseNode)
    return .select c t e
  | .stack _ (some output) => unfolded stage around output
  | .struct _ values =>
    let type ← p.typeIn around m
    let members ← p.structs.get? type.name
    let args ← (values.zip (members.map Member.type)).mapM fun a => do
      p.brought around a.1 a.2 (← unfolded stage around a.1)
    return .construct type args
  | .array element values =>
    let type ← p.typeIn around m
    let args ← values.mapM fun a => do
      p.brought around a element (← unfolded stage around a)
    return .construct type args
  | .member base name => return .member (← unfolded stage around base) name
  | .index base i =>
    return .index (← unfolded stage around base) (← unfolded stage around i)
  | .context inner _ => unfolded stage (m :: around) inner
  | .contextValue key fallback =>
    match p.lookup? key around, fallback with
    | some (value, outer), _ => unfolded stage outer value
    | none, some value => unfolded stage around value
    | none, none => none
  | .cache inner _ => unfolded stage around inner
  | .conditional _ _ none | .stack _ none | .jump _ | .structType .. | .var .. | .assign ..
  | .loop .. | .loopIndex .. | .call .. | .remap .. | .custom _ => none

/-- What a node stands for in a stage, under the context nodes `around`, innermost first. -/
noncomputable def unfolded (p : Plan) (names : Naming) (stage : Stage) (around : List NodeId)
    (id : NodeId) : Option Expr :=
  leastFixed (fun f σ => p.unfoldedStep names (fun stage around id => f (stage, around, id)) σ.1 σ.2.1
    σ.2.2) (stage, around, id)

/-- What a node stands for, as a value of type `target`. -/
noncomputable def unfoldedAs (p : Plan) (names : Naming) (stage : Stage) (around : List NodeId)
    (id : NodeId) (target : ValueType) : Option Expr := do
  p.brought around id target (← p.unfolded names stage around id)

end Plan

/-! ### Small facts -/

namespace Plan

variable {p : Plan} {id m : NodeId} {n : Node} {around : List NodeId} {names : Naming} {t : Stage}

theorem finitary_typeStep (σ : List NodeId × NodeId) :
    Finitary fun f => p.typeStep (fun around id => f (around, id)) σ.1 σ.2 := by
  refine .bind (.const _) ?_
  rintro ⟨m, n⟩
  cases n with
  | context inner _ => exact .apply _
  | contextValue key fallback =>
    dsimp only
    cases p.lookup? key σ.1 <;> cases fallback <;> first | exact .const _ | exact .apply _
  | conditional _ _ elseNode => cases elseNode <;> first | exact .const _ | exact .apply _
  | stack _ output => cases output <;> first | exact .const _ | exact .apply _
  | varying | cache => exact .apply _
  | operator =>
    exact .bind (.apply _) fun _ => .bind (.apply _) fun _ => .const _
  | unary | split | member | index => exact .bind (.apply _) fun _ => .const _
  | math | join => exact .bind (.mapM (fun _ => .apply _) _) fun _ => .const _
  | _ => exact .const _

theorem typeIn_eq : p.typeIn around id = p.typeStep p.typeIn around id :=
  leastFixed_eq finitary_typeStep (around, id)

theorem finitary_unfoldedStep (σ : Stage × List NodeId × NodeId) :
    Finitary fun f => p.unfoldedStep names (fun stage around id => f (stage, around, id)) σ.1 σ.2.1
      σ.2.2 := by
  refine .bind (.const _) ?_
  rintro ⟨m, n⟩
  cases n with
  | context | varying | cache => exact .apply _
  | contextValue key fallback =>
    dsimp only
    cases p.lookup? key σ.2.1 <;> cases fallback <;> first | exact .const _ | exact .apply _
  | stack _ output => cases output <;> first | exact .const _ | exact .apply _
  | texture name uv level =>
    refine .bind (.const _) fun _ => .bind (.apply _) fun _ => .bind (.const _) fun _ => ?_
    cases level with
    | none => exact .const _
    | some _ => exact .bind (.apply _) fun _ => .const _
  | operator =>
    exact .bind (.const _) fun _ => .bind (.const _) fun _ => .bind (.const _) fun _ =>
      .bind (.apply _) fun _ => .bind (.const _) fun _ => .bind (.apply _) fun _ => .const _
  | unary | member => exact .bind (.apply _) fun _ => .const _
  | index => exact .bind (.apply _) fun _ => .bind (.apply _) fun _ => .const _
  | math =>
    exact .bind (.const _) fun _ => .bind (.const _) fun _ => .bind (.const _) fun _ =>
      .bind (.mapM (fun _ => .bind (.apply _) fun _ => .const _) _) fun _ => .const _
  | split =>
    exact .bind (.const _) fun _ => .bind (.const _) fun _ => .bind (.apply _) fun _ => .const _
  | join =>
    exact .bind (.const _) fun _ => .bind (.mapM (fun _ => .bind (.const _) fun _ =>
      .bind (.apply _) fun _ => .const _) _) fun _ => .const _
  | convert => exact .bind (.const _) fun _ => .bind (.apply _) fun _ => .const _
  | conditional _ _ elseNode =>
    cases elseNode with
    | none => exact .const _
    | some _ =>
      exact .bind (.const _) fun _ => .bind (.apply _) fun _ => .bind (.const _) fun _ =>
        .bind (.apply _) fun _ => .bind (.const _) fun _ => .bind (.apply _) fun _ => .const _
  | struct =>
    exact .bind (.const _) fun _ => .bind (.const _) fun _ =>
      .bind (.mapM (fun _ => .bind (.apply _) fun _ => .const _) _) fun _ => .const _
  | array =>
    exact .bind (.const _) fun _ =>
      .bind (.mapM (fun _ => .bind (.apply _) fun _ => .const _) _) fun _ => .const _
  | _ => exact .const _

theorem unfolded_eq :
    p.unfolded names t around id = p.unfoldedStep names (p.unfolded names) t around id :=
  leastFixed_eq finitary_unfoldedStep (t, around, id)

theorem built?_eq (hm : p.resolve id = .ok m) (hn : p.node m = .ok n) :
    p.built? id = some (m, n) := by
  rw [built?, hm]
  show (p.node m).toOption.bind _ = _
  rw [hn]
  rfl

theorem built?_resolve (hm : p.resolve id = .ok m) : p.built? id = p.built? m := by
  rw [built?, built?, hm, resolve_of_resolve hm]

/-- A node has the type of the one that is built in its place. -/
theorem typeIn_resolve (hm : p.resolve id = .ok m) : p.typeIn around id = p.typeIn around m := by
  rw [typeIn_eq, typeIn_eq, typeStep, typeStep, built?_resolve hm]

theorem typeIn_context {inner : NodeId} {values : List (String × NodeId)} (hm : p.resolve m = .ok m)
    (hn : p.node m = .ok (.context inner values)) :
    p.typeIn around m = p.typeIn (m :: around) inner := by
  rw [typeIn_eq, typeStep, built?_eq hm hn]
  rfl

/-- A context value has the type of what it stands for. -/
theorem typeIn_contextValue {key : String} {fallback : Option NodeId} {c : NodeId}
    {outer : List NodeId} (hm : p.resolve m = .ok m)
    (hn : p.node m = .ok (.contextValue key fallback))
    (h : p.lookup? key around = some (c, outer) ∨
      p.lookup? key around = none ∧ fallback = some c ∧ outer = around) :
    p.typeIn around m = p.typeIn outer c := by
  rw [typeIn_eq, typeStep, built?_eq hm hn, Option.bind_eq_bind, Option.bind_some]
  rcases h with hl | ⟨hl, rfl, rfl⟩ <;> simp only [hl]

/-- A node stands for what the one that is built in its place stands for. -/
theorem unfolded_resolve (hm : p.resolve id = .ok m) :
    p.unfolded names t around id = p.unfolded names t around m := by
  rw [unfolded_eq, unfolded_eq, unfoldedStep, unfoldedStep, built?_resolve hm]

/-- A context value stands for what is lent, or for its own value. -/
theorem unfolded_contextValue {key : String} {fallback : Option NodeId} {c : NodeId}
    {outer : List NodeId} (hm : p.resolve m = .ok m)
    (hn : p.node m = .ok (.contextValue key fallback))
    (h : p.lookup? key around = some (c, outer) ∨
      p.lookup? key around = none ∧ fallback = some c ∧ outer = around) :
    p.unfolded names t around m = p.unfolded names t outer c := by
  rw [unfolded_eq, unfoldedStep, built?_eq hm hn, Option.bind_eq_bind, Option.bind_some]
  rcases h with hl | ⟨hl, rfl, rfl⟩ <;> simp only [hl]

theorem bind_unfolded_brought {α : Type} {target : ValueType} {f : Expr → Option α} :
    ((p.unfolded names t around id).bind fun e => (p.brought around id target e).bind f) =
      (p.unfoldedAs names t around id target).bind f := (Option.bind_assoc ..).symm

end Plan

/-! ### Generated code -/

/-- Whether a reference is to what programs declare outside of their entry points and hand in. -/
def Reference.isInput : Reference → Bool
  | .uniform .. | .meshAttribute _ | .builtin _ | .storage _ => true
  | .local _ | .varying .. => false

/-- The statements of the entry points of some programs. -/
structure Code where
  /-- The declarations at the top. -/
  locals : Stage → List Statement
  /-- The statements below, those in blocks as well. -/
  body : Stage → List Statement
  /-- What a varying may carry, as far as that is known. -/
  carries : String → Expr → Prop := fun _ _ => True

namespace Code

mutual

/-- An expression of the entry point of a stage, with each local that is declared with a value and
each varying replaced by the value it got. A local that both sides of a branch write at their end
is a choice. -/
inductive Reads (c : Code) : Stage → Expr → Expr → Prop
  | literal {t : Stage} {kind : ScalarKind} {value : Float} :
      Reads c t (.literal kind value) (.literal kind value)
  | input {t : Stage} {r : Reference} : r.isInput = true → Reads c t (.reference r) (.reference r)
  | property {t : Stage} {n : String} {type : ValueType} {m : Mutability} {owner : Option CacheKey} :
      .declare n type none m owner ∈ c.locals t →
      Reads c t (.reference (.local n)) (.reference (.local n))
  | temp {t : Stage} {n : String} {type : ValueType} {init u : Expr} {m : Mutability}
      {owner : Option CacheKey} :
      .declare n type (some init) m owner ∈ c.body t → Reads c t init u →
      Reads c t (.reference (.local n)) u
  | branch {t : Stage} {n : String} {condition value value' x y y' : Expr}
      {thenBody elseBody : List Statement} :
      .branch condition thenBody (some elseBody) ∈ c.body t →
      thenBody.getLast? = some (.assign (.reference (.local n)) value) →
      elseBody.getLast? = some (.assign (.reference (.local n)) value') →
      Reads c t condition x → Reads c t value y → Reads c t value' y' →
      Reads c t (.reference (.local n)) (.select x y y')
  | varying {t t' : Stage} {n : String} {value u : Expr} :
      .assign (.reference (.varying .vertex n)) value ∈ c.body .vertex →
      Reads c .vertex value u → c.carries n u → Reads c t (.reference (.varying t' n)) u
  | construct {t : Stage} {type : ValueType} {es us : List Expr} : ReadsAll c t es us →
      Reads c t (.construct type es) (.construct type us)
  | operator {t : Stage} {op : BinaryOp} {l r l' r' : Expr} : Reads c t l l' → Reads c t r r' →
      Reads c t (.operator op l r) (.operator op l' r')
  | remainder {t : Stage} {l r l' r' : Expr} : Reads c t l l' → Reads c t r r' →
      Reads c t (.remainder l r) (.remainder l' r')
  | unary {t : Stage} {op : UnaryOp} {e u : Expr} : Reads c t e u →
      Reads c t (.unary op e) (.unary op u)
  | math {t : Stage} {method : MathMethod} {es us : List Expr} : ReadsAll c t es us →
      Reads c t (.math method es) (.math method us)
  | select {t : Stage} {e₁ e₂ e₃ u₁ u₂ u₃ : Expr} : Reads c t e₁ u₁ → Reads c t e₂ u₂ →
      Reads c t e₃ u₃ → Reads c t (.select e₁ e₂ e₃) (.select u₁ u₂ u₃)
  | sample {t : Stage} {texture sampler : String} {uv uv' : Expr} {level level' : Option Expr} :
      Reads c t uv uv' → ReadsAll c t level.toList level'.toList →
      Reads c t (.sample texture sampler uv level) (.sample texture sampler uv' level')
  | swizzle {t : Stage} {e u : Expr} {components : List Component} : Reads c t e u →
      Reads c t (.swizzle e components) (.swizzle u components)
  | member {t : Stage} {e u : Expr} {name : String} : Reads c t e u →
      Reads c t (.member e name) (.member u name)
  | index {t : Stage} {e i u j : Expr} : Reads c t e u → Reads c t i j →
      Reads c t (.index e i) (.index u j)

/-- Some expressions, each of them read. -/
inductive ReadsAll (c : Code) : Stage → List Expr → List Expr → Prop
  | nil {t : Stage} : ReadsAll c t [] []
  | cons {t : Stage} {e u : Expr} {es us : List Expr} : Reads c t e u → ReadsAll c t es us →
      ReadsAll c t (e :: es) (u :: us)

end

variable {c : Code} {t : Stage} {e u x : Expr}

theorem ReadsAll.single (h : c.Reads t e u) : c.ReadsAll t [e] [u] := .cons h .nil

theorem ReadsAll.of_forall₂ {es us : List Expr} (h : List.Forall₂ (c.Reads t) es us) :
    c.ReadsAll t es us := by
  induction h with
  | nil => exact .nil
  | cons h _ ih => exact .cons h ih

theorem ReadsAll.literals {es : List Expr} (h : ∀ e ∈ es, ∃ kind value, e = .literal kind value) :
    c.ReadsAll t es es := by
  induction es with
  | nil => exact .nil
  | cons e rest ih =>
    obtain ⟨kind, value, rfl⟩ := h e (.head _)
    exact .cons .literal (ih fun e he => h e (.tail _ he))

/-! ### Conversions -/

theorem Reads.castScalar (h : c.Reads t e u) (k l : ScalarKind) :
    c.Reads t (e.castScalar k l) (u.castScalar k l) := by
  unfold Expr.castScalar
  split
  · exact h
  · exact .construct (.single h)

/-- How expressions of one type are brought to another does not depend on the expression. -/
theorem coerce_cases (source target : ValueType) :
    (∃ error, ∀ e : Expr, e.coerce source target = .error error) ∨
      (∀ e : Expr, e.coerce source target = .ok e) ∨
      (∃ k l, ∀ e : Expr, e.coerce source target = .ok (e.castScalar k l)) ∨
      (∃ k l, ∀ e : Expr, e.coerce source target = .ok (.construct target [e.castScalar k l])) ∨
      ∀ e : Expr, e.coerce source target = .ok (.construct target [e]) := by
  by_cases same : source = target
  · exact .inr (.inl fun e => if_pos same)
  cases hk : source.scalarKind with
  | none => exact .inl ⟨_, fun e => by rw [Expr.coerce, if_neg same, hk]⟩
  | some k =>
    cases hl : target.scalarKind with
    | none => exact .inl ⟨_, fun e => by rw [Expr.coerce, if_neg same, hk, hl]⟩
    | some l =>
      have numbers : ∀ e : Expr, e.coerce source target =
          if source.isMatrix || target.isMatrix || k = .bool || l = .bool then
            .error (.coercion source target)
          else if source.isScalar then
            if target.isScalar then .ok (e.castScalar k l)
            else .ok (.construct target [e.castScalar k l])
          else if target.isVector && source.components = target.components then
            .ok (.construct target [e])
          else .error (.coercion source target) :=
        fun e => by rw [Expr.coerce, if_neg same, hk, hl]
      simp only [numbers]
      split
      · exact .inl ⟨_, fun _ => rfl⟩
      split
      · split
        · exact .inr (.inr (.inl ⟨k, l, fun _ => rfl⟩))
        · exact .inr (.inr (.inr (.inl ⟨k, l, fun _ => rfl⟩)))
      split
      · exact .inr (.inr (.inr (.inr fun _ => rfl)))
      · exact .inl ⟨_, fun _ => rfl⟩

/-- What an expression stands for is brought to a type as the expression is. -/
theorem Reads.coerce (h : c.Reads t e u) {source target : ValueType}
    (hx : e.coerce source target = .ok x) :
    ∃ y, u.coerce source target = .ok y ∧ c.Reads t x y := by
  rcases coerce_cases source target with ⟨_, he⟩ | he | ⟨k, l, he⟩ | ⟨k, l, he⟩ | he
  all_goals cases hx.symm.trans (he e)
  · exact ⟨_, he u, h⟩
  · exact ⟨_, he u, h.castScalar k l⟩
  · exact ⟨_, he u, .construct (.single (h.castScalar k l))⟩
  · exact ⟨_, he u, .construct (.single h)⟩

theorem convert_cases (source target : ValueType) :
    (∃ error, ∀ e : Expr, e.convert source target = .error error) ∨
      (∀ e : Expr, e.convert source target = .ok e) ∨
      ∃ cast : Expr → Expr, (∀ {c : Code} {t e u}, c.Reads t e u → c.Reads t (cast e) (cast u)) ∧
        ((∀ e : Expr, e.convert source target = .ok (cast e)) ∨
          (∀ e : Expr, e.convert source target = .ok (.construct target [cast e])) ∨
          (∃ cs, ∀ e : Expr, e.convert source target = .ok (.swizzle (cast e) cs)) ∨
          ∃ kind n m, ∀ e : Expr, e.convert source target =
            .ok (.construct target (cast e :: Expr.padding kind n m))) := by
  by_cases same : source = target
  · exact .inr (.inl fun e => if_pos same)
  by_cases matrices : source.isMatrix || target.isMatrix
  · exact .inl ⟨_, fun e => by rw [Expr.convert, if_neg same, if_pos matrices]⟩
  cases hk : source.scalarKind with
  | none => exact .inl ⟨_, fun e => by rw [Expr.convert, if_neg same, if_neg matrices, hk]⟩
  | some k =>
    cases hl : target.scalarKind with
    | none => exact .inl ⟨_, fun e => by rw [Expr.convert, if_neg same, if_neg matrices, hk, hl]⟩
    | some l =>
      let cast : Expr → Expr := fun e => if k = l then e else .construct (source.recast l) [e]
      refine .inr (.inr ⟨cast, fun h => ?_, ?_⟩)
      · show Reads _ _ (if k = l then _ else _) (if k = l then _ else _)
        split
        · exact h
        · exact .construct (.single h)
      have numbers : ∀ e : Expr, e.convert source target =
          if source.components.toNat = target.components.toNat then .ok (cast e)
          else if source.components.toNat = 1 then .ok (.construct target [cast e])
          else if target.components.toNat < source.components.toNat then
            .ok (.swizzle (cast e) (Component.all.take target.components.toNat))
          else .ok (.construct target
            (cast e :: Expr.padding l source.components.toNat target.components.toNat)) :=
        fun e => by rw [Expr.convert, if_neg same, if_neg matrices, hk, hl]
      simp only [numbers]
      split
      · exact .inl fun _ => rfl
      split
      · exact .inr (.inl fun _ => rfl)
      split
      · exact .inr (.inr (.inl ⟨_, fun _ => rfl⟩))
      · exact .inr (.inr (.inr ⟨_, _, _, fun _ => rfl⟩))

/-- What an expression stands for is converted as the expression is. -/
theorem Reads.convert (h : c.Reads t e u) {source target : ValueType}
    (hx : e.convert source target = .ok x) :
    ∃ y, u.convert source target = .ok y ∧ c.Reads t x y := by
  rcases convert_cases source target with ⟨_, he⟩ | he | ⟨cast, hcast, he | he | ⟨cs, he⟩ | ⟨_, _, _, he⟩⟩
  all_goals cases hx.symm.trans (he e)
  · exact ⟨_, he u, h⟩
  · exact ⟨_, he u, hcast h⟩
  · exact ⟨_, he u, .construct (.single (hcast h))⟩
  · exact ⟨_, he u, .swizzle (hcast h)⟩
  · refine ⟨_, he u, .construct (.cons (hcast h) (.literals ?_))⟩
    intro e he
    obtain ⟨i, -, rfl⟩ := List.mem_map.1 he
    exact ⟨_, _, rfl⟩

end Code

end ShaderGraph
