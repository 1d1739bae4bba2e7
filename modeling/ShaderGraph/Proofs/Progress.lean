import Mathlib.Data.List.Forall2
import ShaderGraph.Build.Run
import ShaderGraph.Proofs.Coercions
import ShaderGraph.Proofs.Evaluation
import ShaderGraph.Proofs.Survey

/-!
# Types of expressions

An expression is made of constants, operators, math methods, swizzles, joins and choices.
`Plan.Types` gives the rules by which expressions have types, apart from any build. A build finds
these types and no others (`typeOf_types`); in a graph without cycles it finds the type of whatever
has one (`typeOf_progress`).
-/

namespace ShaderGraph

/-- Whether a node is part of an expression: it has a value, which comes from the values below it
alone, in every stage. -/
def NodeOf.isExpression {ρ μ : Type} : NodeOf ρ μ → Bool
  | const .. | operator .. | unary .. | split .. => true
  | math method _ => !method.isDerivative
  | join _ type => type.isNone
  | conditional _ _ elseNode => elseNode.isSome
  | _ => false

/-- The rule by which a node has a type, when `type` gives the types of the nodes it refers to. -/
def Node.Rule (type : NodeId → ValueType) : Node → ValueType → Prop
  | .const own values, t => constantType own values = .ok t
  | .operator op left right, t => op.resultType (type left) (type right) = .ok t
  | .unary op operand, t => op.resultType (type operand) = .ok t
  | .math method args, t => method.isDerivative = false ∧ method.resultType (args.map type) = .ok t
  | .split source components, t => Swizzle.resultType (type source) components = .ok t
  | .join parts none, t => joinType (parts.map type) none = .ok t
  | .conditional condition thenNode (some elseNode), t =>
    type condition = .bool ∧ type thenNode = t ∧ type elseNode = t
  | _, _ => False

namespace Plan

/-- The types of expressions. -/
inductive Types (p : Plan) : NodeId → ValueType → Prop
  | of {id m : NodeId} {n : Node} {t : ValueType} (type : NodeId → ValueType) :
      p.resolve id = .ok m → p.node m = .ok n → (∀ c ∈ n.children, Types p c (type c)) →
      n.Rule type t → Types p id t

/-- The nodes are parts of expressions. -/
def OfExpressions (p : Plan) : Prop := ∀ id n, p.node id = .ok n → n.isExpression = true

end Plan

/-! ### Rules -/

namespace Node.Rule

variable {type type' : NodeId → ValueType} {n : Node} {t t' : ValueType}

/-- A rule looks at the types of the nodes below only. -/
theorem congr (h : n.Rule type t) (same : ∀ c ∈ n.children, type c = type' c) :
    n.Rule type' t := by
  cases n with
  | operator op left right =>
    show op.resultType (type' left) (type' right) = .ok t
    rwa [← same left (.head _), ← same right (.tail _ (.head _))]
  | unary op operand =>
    show op.resultType (type' operand) = .ok t
    rwa [← same operand (.head _)]
  | math method args =>
    have args : args.map type = args.map type' := List.map_congr_left same
    exact ⟨h.1, args ▸ h.2⟩
  | split source components =>
    show Swizzle.resultType (type' source) components = .ok t
    rwa [← same source (.head _)]
  | join parts explicit =>
    cases explicit with
    | some => exact h
    | none =>
      have parts : parts.map type = parts.map type' := List.map_congr_left same
      show joinType _ none = .ok t
      exact parts ▸ h
  | conditional condition thenNode elseNode =>
    cases elseNode with
    | none => exact h
    | some elseNode =>
      obtain ⟨hc, ht, he⟩ := h
      exact ⟨same condition (.head _) ▸ hc, same thenNode (.tail _ (.head _)) ▸ ht,
        same elseNode (.tail _ (.tail _ (.head _))) ▸ he⟩
  | _ => exact h

theorem unique (h : n.Rule type t) (h' : n.Rule type t') : t = t' := by
  cases n with
  | const | operator | unary | split => exact Except.ok.inj (h.symm.trans h')
  | math => exact Except.ok.inj (h.2.symm.trans h'.2)
  | join parts explicit =>
    cases explicit with
    | some => cases h
    | none => exact Except.ok.inj (h.symm.trans h')
  | conditional condition thenNode elseNode =>
    cases elseNode with
    | none => cases h
    | some => exact h.2.1.symm.trans h'.2.1
  | _ => cases h

/-- What has a type by a rule consists of scalars, when the nodes below do. -/
theorem kinded (h : n.Rule type t) (below : ∀ c ∈ n.children, ∃ k, (type c).scalarKind = some k) :
    ∃ k, t.scalarKind = some k := by
  cases n with
  | const => exact kinded_of_constantType h
  | operator => exact (BinaryOp.takes_of_resultType h).kinded
  | unary op operand => exact UnaryOp.resultType_eq h ▸ below operand (.head _)
  | math => exact (MathMethod.fits_of_resultType h.2).kinded
  | split => exact (Swizzle.of_resultType h).2
  | join parts explicit =>
    cases explicit with
    | some => cases h
    | none => exact (coerces_of_joinType h).2
  | conditional condition thenNode elseNode =>
    cases elseNode with
    | none => cases h
    | some => exact h.2.1 ▸ below thenNode (.tail _ (.head _))
  | _ => cases h

/-- What has a type by a rule is an expression. -/
theorem isPure (h : n.Rule type t) : Build.isImpure n = false := by
  cases n with
  | conditional _ _ elseNode =>
    cases elseNode with
    | none => cases h
    | some => rfl
  | _ => first | rfl | cases h

end Node.Rule

namespace Plan.Types

variable {p : Plan} {id m : NodeId} {n : Node} {t t' : ValueType}

/-- An expression has one type. -/
theorem unique (h : p.Types id t) (h' : p.Types id t') : t = t' := by
  induction h generalizing t' with
  | of type hm hn _ rule ih =>
    cases h' with
    | of type' hm' hn' below' rule' =>
      cases hm.symm.trans hm'
      cases hn.symm.trans hn'
      exact (rule.congr fun c hc => ih c hc (below' c hc)).unique rule'

/-- What has a type consists of scalars. -/
theorem kinded (h : p.Types id t) : ∃ k, t.scalarKind = some k := by
  induction h with
  | of type hm hn _ rule ih => exact rule.kinded ih

/-- A node has the type of the one that is built in its place. -/
theorem iff_of_resolve (hm : p.resolve id = .ok m) : p.Types id t ↔ p.Types m t := by
  have own := resolve_of_resolve hm
  constructor
  · rintro (⟨type, hm', hn, below, rule⟩)
    cases hm.symm.trans hm'
    exact .of type own hn below rule
  · rintro (⟨type, hm', hn, below, rule⟩)
    cases own.symm.trans hm'
    exact .of type hm hn below rule

theorem map_eq {type : NodeId → ValueType} {ids : List NodeId} {ts : List ValueType}
    (h : List.Forall₂ p.Types ids ts) (typed : ∀ c ∈ ids, p.Types c (type c)) :
    ids.map type = ts := by
  induction h with
  | nil => rfl
  | cons head _ ih =>
    rw [List.map_cons, ih fun c hc => typed c (.tail _ hc), (typed _ (.head _)).unique head]

/-- A node has a type when the nodes below have and its rule fits. -/
theorem ofChildren {ts : List ValueType} (hm : p.resolve m = .ok m) (hn : p.node m = .ok n)
    (below : List.Forall₂ p.Types n.children ts)
    (rule : ∀ type, n.children.map type = ts → n.Rule type t) : p.Types m t := by
  have some : ∀ c ∈ n.children, ∃ u, p.Types c u := by
    intro c hc
    obtain ⟨i, hi, rfl⟩ := List.getElem_of_mem hc
    exact ⟨_, below.get hi (below.length_eq ▸ hi)⟩
  choose! type typed using some
  exact .of type hm hn typed (rule type (map_eq below typed))

end Plan.Types

/-! ### Types that are found -/

/-- The types that were found are those of expressions. -/
def BuildState.Typed (p : Plan) (s : BuildState) : Prop :=
  ∀ id frame t, s.types.get? (id, frame) = some t → p.Types id t

/-- What keeps to the types of expressions. -/
def Law.typed (p : Plan) : Law where
  inv env s := env.plan = p ∧ s.Typed p
  rel _ s s' := s.Typed p → s'.Typed p
  ends _ := True
  refl _ h := h
  trans h h' hs := h' (h hs)
  mono hi hr := ⟨hi.1, hr hi.2⟩
  loops _ hi := hi
  ordinary _ := trivial
  located _ := trivial

theorem BuildState.Typed.of_types {p : Plan} {s s' : BuildState} (hs : s.Typed p)
    (same : s'.types = s.types) : s'.Typed p := by
  intro id frame t hg
  rw [same] at hg
  exact hs id frame t hg

/-- Another type of an expression is kept. -/
theorem BuildState.Typed.put {p : Plan} {s : BuildState} {m : NodeId} {frame : FrameId}
    {t : ValueType} (hs : s.Typed p) (ht : p.Types m t) :
    { s with types := s.types.put (m, frame) t }.Typed p := by
  intro id frame' t' hg
  simp only [OrderedMap.get?_put] at hg
  split at hg
  · next same =>
    cases hg
    cases same
    exact ht
  · exact hs _ _ _ hg

theorem Law.Yields.forall₂ {L : Law} {α β : Type} {env : Env} {f : α → Build β}
    {R : α → β → Prop} {xs : List α} (h : ∀ x ∈ xs, L.Yields env (f x) (R x)) :
    L.Yields env (xs.mapM f) (List.Forall₂ R xs) := by
  induction xs with
  | nil =>
    rw [List.mapM_nil]
    exact .pure .nil
  | cons x rest ih =>
    rw [List.mapM_cons]
    refine .bind (h x (.head _)) fun y hy => ?_
    exact .bind (ih fun x' hx' => h x' (.tail _ hx')) fun ys hys => .pure (.cons hy hys)

namespace Build

open Law Plan

variable {p : Plan} {env : Env} {id m : NodeId} {n : Node} {t : ValueType}

/-- What is found for the parts of an expression is the type of the expression. -/
theorem typeOfNode_types {typeOf : NodeId → Build ValueType} (he : n.isExpression = true)
    (hm : p.resolve m = .ok m) (hn : p.node m = .ok n)
    (h : ∀ c, (Law.typed p).Yields env (typeOf c) (p.Types c)) :
    (Law.typed p).Yields env (typeOfNode typeOf m n) (p.Types m) := by
  cases n with
  | const own values =>
    exact .ofExcept (fun _ _ => rfl) fun t ht => .ofChildren hm hn .nil fun type _ => ht
  | operator op left right =>
    refine .bind (h left) fun l hl => .bind (h right) fun r hr => ?_
    refine .ofExcept (fun _ _ => rfl) fun t ht => .ofChildren hm hn (.cons hl (.cons hr .nil)) ?_
    intro type same
    cases same
    exact ht
  | unary op operand =>
    refine .bind (h operand) fun a ha => ?_
    refine .ofExcept (fun _ _ => rfl) fun t ht => .ofChildren hm hn (.cons ha .nil) ?_
    intro type same
    cases same
    exact ht
  | math method args =>
    refine .bind (.forall₂ fun c _ => h c) fun ts hts => ?_
    refine .ofExcept (fun _ _ => rfl) fun t ht => .ofChildren hm hn hts fun type same => ?_
    exact ⟨by simpa [NodeOf.isExpression] using he, same ▸ ht⟩
  | split source components =>
    refine .bind (h source) fun a ha => ?_
    refine .ofExcept (fun _ _ => rfl) fun t ht => .ofChildren hm hn (.cons ha .nil) ?_
    intro type same
    cases same
    exact ht
  | join parts explicit =>
    obtain rfl := Option.isNone_iff_eq_none.1 he
    refine .bind (.forall₂ fun c _ => h c) fun ts hts => ?_
    refine .ofExcept (fun _ _ => rfl) fun t ht => .ofChildren hm hn hts fun type same => ?_
    show joinType _ none = .ok t
    exact same ▸ ht
  | conditional condition thenNode elseNode =>
    obtain ⟨elseNode, rfl⟩ := Option.isSome_iff_exists.1 he
    refine .bind (h condition) fun c hc => .check rfl fun isBool => ?_
    refine .bind (h thenNode) fun t ht => .bind (h elseNode) fun e he => ?_
    refine .check rfl fun equal => .pure (.ofChildren hm hn (.cons hc (.cons ht (.cons he .nil))) ?_)
    intro type same
    cases same
    exact ⟨Decidable.not_not.1 isBool, rfl, (Decidable.not_not.1 equal).symm⟩
  | _ => cases he

/-- The types that are found are those of expressions. -/
theorem typeOfIn_types (he : p.OfExpressions) (fuel : Nat) (env : Env) (id : NodeId) :
    (Law.typed p).Yields env (typeOfIn fuel id) (p.Types id) := by
  induction fuel generalizing env id with
  | zero => exact fun _ _ => trivial
  | succ fuel ih =>
    rintro s ⟨rfl, hs⟩
    refine meets_typeOfIn (fun _ => trivial) (fun m t hm ht => ?_) fun m n hm hn _ _ => ?_
    · exact ⟨Law.refl _ s, (Types.iff_of_resolve hm).2 (hs _ _ _ ht)⟩
    · have below : (Law.typed env.plan).Yields
          { env with typing := (m, Frame.current env.frames) :: env.typing }
          (typeOfNode (typeOfIn fuel) m n) (env.plan.Types m) :=
        typeOfNode_types (he m n hn) (resolve_of_resolve hm) hn (ih _)
      refine (below s ⟨rfl, hs⟩).imp fun t s' hr => ?_
      exact ⟨fun hs => (hr.1 hs).put hr.2, (Types.iff_of_resolve hm).2 hr.2⟩

theorem typeOf_types (he : p.OfExpressions) (id : NodeId) :
    (Law.typed p).Yields env (typeOf id) (p.Types id) :=
  .after (.read (.pure _)) fun fuel => typeOfIn_types he fuel env id

/-! ### Steps that do not fail -/

/-- Wherever only types of expressions were found, the step ends well, finds no others, and has a
value that satisfies `P`. -/
def Succeeds {α : Type} (p : Plan) (env : Env) (step : Build α) (P : α → Prop) : Prop :=
  ∀ s : BuildState, s.Typed p → Meets step env s (fun _ => False) fun a s' => s'.Typed p ∧ P a

namespace Succeeds

variable {α β : Type} {step : Build α} {next : α → Build β} {P : α → Prop} {Q : β → Prop}

theorem pure {a : α} (h : P a) : Succeeds p env (Pure.pure a) P := fun _ hs => ⟨hs, h⟩

theorem imp (h : Succeeds p env step P) {P' : α → Prop} (hp : ∀ a, P a → P' a) :
    Succeeds p env step P' :=
  fun s hs => (h s hs).imp fun a _ ha => ⟨ha.1, hp a ha.2⟩

theorem bind (h : Succeeds p env step P) (hn : ∀ a, P a → Succeeds p env (next a) Q) :
    Succeeds p env (step >>= next) Q := by
  intro s hs
  rw [meets_bind]
  exact (h s hs).imp fun a s' ha => hn a ha.2 s' ha.1

theorem map {f : α → β} (h : Succeeds p env step P) (hf : ∀ a, P a → Q (f a)) :
    Succeeds p env (f <$> step) Q := by
  intro s hs
  rw [meets_map]
  exact (h s hs).imp fun a _ ha => ⟨ha.1, hf a ha.2⟩

theorem discard (h : Succeeds p env step P) :
    Succeeds p env (Functor.discard step) fun _ => True := h.map fun _ _ => trivial

theorem read {next : Env → Build β} (h : Succeeds p env (next env) Q) :
    Succeeds p env (MonadReader.read >>= next) Q := fun s hs => h s hs

theorem get {next : BuildState → Build β} (h : ∀ s, s.Typed p → Succeeds p env (next s) Q) :
    Succeeds p env (MonadState.get >>= next) Q := fun s hs => h s hs s hs

/-- A change that leaves the types alone. -/
theorem ofModify {f : BuildState → BuildState} (hf : ∀ s, (f s).types = s.types) :
    Succeeds p env (modify f) fun _ => True :=
  fun s hs => ⟨hs.of_types (hf s), trivial⟩

theorem ofExcept {ε : Type} [Coe ε Cause] {r : Except ε α} {a : α} (h : r = .ok a) :
    Succeeds p env (Build.ofExcept r) fun b => b = a := by
  subst h
  exact .pure rfl

theorem located {id : NodeId} (h : Succeeds p env step P) :
    Succeeds p env (Build.located id step) P :=
  fun s hs => (h s hs).located fun _ => False.elim

theorem resolve {next : NodeId → Build β} (hm : env.plan.resolve id = .ok m)
    (h : Succeeds p env (next m) Q) : Succeeds p env (Build.resolve id >>= next) Q := by
  intro s hs
  rw [meets_bind, meets_resolve, hm]
  exact h s hs

theorem node {next : Node → Build β} (hn : env.plan.node m = .ok n)
    (h : Succeeds p env (next n) Q) : Succeeds p env (Build.node m >>= next) Q := by
  intro s hs
  rw [meets_bind, meets_node, hn]
  exact h s hs

theorem whenTrue {c : Prop} [Decidable c] {step' : Build α} (hc : c) (h : Succeeds p env step P) :
    Succeeds p env (if c then step else step') P := by
  rwa [if_pos hc]

theorem whenFalse {c : Prop} [Decidable c] {step' : Build α} (hc : ¬c)
    (h : Succeeds p env step' P) : Succeeds p env (if c then step else step') P := by
  rwa [if_neg hc]

theorem mapM {f : α → Build β} {R : α → β → Prop} {xs : List α}
    (h : ∀ x ∈ xs, Succeeds p env (f x) (R x)) :
    Succeeds p env (xs.mapM f) (List.Forall₂ R xs) := by
  induction xs with
  | nil =>
    rw [List.mapM_nil]
    exact .pure .nil
  | cons x rest ih =>
    rw [List.mapM_cons]
    refine .bind (h x (.head _)) fun y hy => ?_
    exact .bind (ih fun x' hx' => h x' (.tail _ hx')) fun ys hys => .pure (.cons hy hys)

/-- Steps whose values a function gives. -/
theorem mapM_eq {f : α → Build β} {g : α → β} {xs : List α}
    (h : ∀ x ∈ xs, Succeeds p env (f x) fun y => y = g x) :
    Succeeds p env (xs.mapM f) fun ys => ys = xs.map g :=
  (mapM h).imp fun ys hys => by
    have same : List.Forall₂ Eq (xs.map g) ys :=
      List.forall₂_map_left_iff.2 (hys.imp fun _ _ he => he.symm)
    exact (List.forall₂_eq_eq_eq ▸ same).symm

end Succeeds

/-! ### Types that are there are found -/

/-- A node has the type that its rule gives when the types of the nodes below are found. -/
theorem typeOfNode_progress {typeOf : NodeId → Build ValueType} {type : NodeId → ValueType}
    (rule : n.Rule type t)
    (h : ∀ c ∈ n.children, Succeeds p env (typeOf c) fun u => u = type c) :
    Succeeds p env (typeOfNode typeOf m n) fun u => u = t := by
  cases n with
  | const own values => exact .ofExcept rule
  | operator op left right =>
    refine .bind (h left (.head _)) fun l hl => .bind (h right (.tail _ (.head _))) fun r hr => ?_
    subst hl hr
    exact .ofExcept rule
  | unary op operand =>
    refine .bind (h operand (.head _)) fun a ha => ?_
    subst ha
    exact .ofExcept rule
  | math method args =>
    refine .bind (.mapM_eq h) fun ts hts => ?_
    subst hts
    exact .ofExcept rule.2
  | split source components =>
    refine .bind (h source (.head _)) fun a ha => ?_
    subst ha
    exact .ofExcept rule
  | join parts explicit =>
    cases explicit with
    | some => cases rule
    | none =>
      refine .bind (.mapM_eq h) fun ts hts => ?_
      subst hts
      exact .ofExcept rule
  | conditional condition thenNode elseNode =>
    cases elseNode with
    | none => cases rule
    | some elseNode =>
      obtain ⟨isBool, thenType, elseType⟩ := rule
      refine .bind (h condition (.head _)) fun c hc => .whenFalse (· (hc.trans isBool)) ?_
      refine .bind (h thenNode (.tail _ (.head _))) fun u hu => ?_
      refine .bind (h elseNode (.tail _ (.tail _ (.head _)))) fun v hv => ?_
      refine .whenFalse (· (hu.trans (thenType.trans (elseType.symm.trans hv.symm)))) (.pure ?_)
      exact hu.trans thenType
  | _ => cases rule

/-- The recursion has room for what is below a node, and none of it is on the way already. -/
structure Room (p : Plan) (env : Env) (fuel : Nat) (id : NodeId) : Prop where
  fuel : ∀ m, p.resolve id = .ok m → p.rank m ≤ fuel
  fresh : ∀ m, p.resolve id = .ok m → ∀ key ∈ env.typing, p.rank m < p.rank key.1

/-- In a graph without cycles the type of whatever has one is found. -/
theorem typeOfIn_progress (hp : p.Acyclic) {fuel : Nat} (plan : env.plan = p) (h : p.Types id t)
    (room : Room p env fuel id) : Succeeds p env (typeOfIn fuel id) fun u => u = t := by
  induction h generalizing env fuel with
  | @of id m n t type hm hn below rule ih =>
    have pos := rank_pos hn
    have deep := room.fuel m hm
    obtain ⟨fuel, rfl⟩ := Nat.exists_eq_succ_of_ne_zero (Nat.ne_of_gt (pos.trans_le deep))
    have own : p.Types m t := .of type (resolve_of_resolve hm) hn below rule
    rw [typeOfIn]
    refine .resolve (plan ▸ hm) (.read (.get fun s hs => ?_))
    split
    · next u hu => exact .pure ((hs _ _ _ hu).unique own)
    · refine .bind (P := fun u => u = t) ?_ fun u hu => ?_
      · refine .read (.whenFalse (fun met => ?_) ?_)
        · exact Nat.lt_irrefl _ (room.fresh m hm _ (List.contains_iff_mem.1 met))
        refine fun s' hs' => Succeeds.located (.node (plan ▸ hn) (typeOfNode_progress rule ?_)) s' hs'
        refine fun c hc => ih c hc plan ⟨fun m' hm' => ?_, fun m' hm' key hk => ?_⟩
        · have := hp.rank_lt ⟨n, c, hn, hc, hm'⟩
          omega
        · have less := hp.rank_lt ⟨n, c, hn, hc, hm'⟩
          rcases List.mem_cons.1 hk with rfl | hk
          · exact less
          · exact less.trans (room.fresh m hm key hk)
      · subst hu
        exact .bind (P := fun _ => True) (fun s' hs' => ⟨hs'.put own, trivial⟩) fun _ _ => .pure rfl

/-- There are fewer nodes below a node than the recursion over types is deep. -/
theorem rank_le_depth (p : Plan) (id : NodeId) : p.rank id ≤ Nat.pow 2 (p.graph.size + 2) :=
  (p.rank_le_size id).trans
    ((Nat.le_of_lt Nat.lt_two_pow_self).trans (Nat.pow_le_pow_right (by decide) (Nat.le_add_right _ 2)))

theorem typeOf_progress (hp : p.Acyclic) (plan : env.plan = p) (idle : env.typing = [])
    (h : p.Types id t) : Succeeds p env (typeOf id) fun u => u = t := by
  subst plan
  refine .bind (P := fun fuel => fuel = Nat.pow 2 (env.plan.graph.size + 2)) (.read (.pure rfl)) ?_
  rintro fuel rfl
  refine typeOfIn_progress hp rfl h ⟨fun m _ => rank_le_depth _ m, fun m _ key hk => ?_⟩
  rw [idle] at hk
  cases hk

end Build

end ShaderGraph
