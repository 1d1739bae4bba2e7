import ShaderGraph.Build.Place
import ShaderGraph.Proofs.Meets

/-!
# Laws

A `Law` is something that every step of a build keeps to: what must hold before a step (`inv`),
how the state after it is related to the one before (`rel`), and which failures it may end in
(`ends`). The statements of a block that was closed belong to no open block until the branch or
the loop around them is added; `rel ss s s'` is about a state `s'` that goes with such
statements `ss`. A law may also restrict the names that an entry point declares (`names`) and
what it assigns to (`places`).

* `Law.Keeps` says that a step keeps to a law, `Law.Leaves` that a step does which hands over the
  statements of a block, and `Law.Yields` that a step does whose value satisfies a condition.
* For each way to compose steps there is a lemma that composes what they keep to.

Generated code consists of items that a state has to provide for: expressions refer to what is in
scope, types need the declarations of structs. A `Supply` says which items a state provides for, which
states there are, and how they go on. `Supply.Makes` is about a step that is taken where some items
are provided for: then so are those that it makes.
-/

namespace ShaderGraph

/-- Whether something is refused because it is met below itself. -/
def Cause.isCycle : Cause → Bool
  | .graph (.cycle _) | .graph (.typeCycle _) => true
  | _ => false

/-- Whether something is refused because a node was not replaced. -/
def Cause.isUnexpanded : Cause → Bool
  | .graph .unexpandedType | .graph .unexpandedCode => true
  | _ => false

/-- Whether something is refused only while a node is analysed, typed or generated. -/
def Cause.isOfWalk (c : Cause) : Bool := c.isCycle || c.isUnexpanded

theorem Cause.isCycle_of_isOfWalk {c : Cause} (h : c.isOfWalk = false) : c.isCycle = false :=
  (Bool.or_eq_false_iff.1 h).1

theorem Cause.isOfWalk_of_isCycle {c : Cause} (h : c.isCycle = true) : c.isOfWalk = true :=
  Bool.or_eq_true_iff.2 (.inl h)

theorem Cause.isOfWalk_of_isUnexpanded {c : Cause} (h : c.isUnexpanded = true) :
    c.isOfWalk = true := Bool.or_eq_true_iff.2 (.inr h)

theorem Cause.exists_of_isOfWalk {c : Cause} (h : c.isOfWalk = true) : ∃ e, c = .graph e := by
  cases c with
  | graph e => exact ⟨e, rfl⟩
  | type | scope | dialect | layout | custom => cases h

theorem resolve_error {p : Plan} {id : NodeId} {e : GraphError} (h : p.resolve id = .error e) :
    (Cause.graph e).isOfWalk = false := by
  unfold Plan.resolve at h
  split at h
  · cases h
  · cases h
    rfl

theorem node_error {p : Plan} {id : NodeId} {e : GraphError} (h : p.node id = .error e) :
    (Cause.graph e).isOfWalk = false := by
  unfold Plan.node at h
  split at h
  · cases h
  · cases h
    rfl

/-- Something that every step of a build keeps to. -/
structure Law where
  inv : Env → BuildState → Prop
  rel : List Statement → BuildState → BuildState → Prop
  ends : Failure → Prop
  names : String → Prop := fun _ => True
  places : Expr → Prop := fun _ => True
  refl : ∀ s, rel [] s s
  trans : ∀ {ss ss' s s' s''}, rel ss s s' → rel ss' s' s'' → rel (ss ++ ss') s s''
  mono : ∀ {env ss s s'}, inv env s → rel ss s s' → inv env s'
  /-- The loops around a node do not matter. -/
  loops : ∀ {env s} (l : List ActiveLoop), inv env s → inv { env with loops := l } s
  /-- Only cycles may not be refused at will. -/
  ordinary : ∀ {e : BuildError}, e.cause.isCycle = false → ends (.refused e)
  located : ∀ {env id f}, ends f → ends (Build.locate env id f)
  /-- Any variable of an entry point may be assigned to. -/
  locals : ∀ name, places (Build.localName name) := by exact fun _ => trivial

/-- What steps that only look keep to. -/
def Law.looking : Law where
  inv _ _ := True
  rel _ s s' := s' = s
  ends _ := True
  refl _ := rfl
  trans h h' := h'.trans h
  mono _ _ := trivial
  loops _ _ := trivial
  ordinary _ := trivial
  located _ := trivial

namespace Law

open Build

variable {L : Law} {α β : Type} {env : Env}

/-- The step keeps to the law. -/
def Keeps (L : Law) (env : Env) (step : Build α) : Prop :=
  ∀ s, L.inv env s → Meets step env s L.ends fun _ s' => L.rel [] s s'

/-- The step keeps to the law and hands over the statements of a block. -/
def Leaves (L : Law) (env : Env) (step : Build (List Statement)) : Prop :=
  ∀ s, L.inv env s → Meets step env s L.ends fun ss s' => L.rel ss s s'

/-- The step keeps to the law and makes sure of `Q`. -/
def Secures (L : Law) (env : Env) (step : Build α) (Q : BuildState → Prop) : Prop :=
  ∀ s, L.inv env s → Meets step env s L.ends fun _ s' => L.rel [] s s' ∧ Q s'

/-- The step keeps to the law and its value satisfies `P`. -/
def Yields (L : Law) (env : Env) (step : Build α) (P : α → Prop) : Prop :=
  ∀ s, L.inv env s → Meets step env s L.ends fun a s' => L.rel [] s s' ∧ P a

/-- What keeps to a law keeps to any law that asks for less. -/
theorem Keeps.weaken {L' : Law} {step : Build α} (h : L.Keeps env step)
    (hi : ∀ s, L'.inv env s → L.inv env s)
    (hr : ∀ s s', L'.inv env s → L.rel [] s s' → L'.rel [] s s')
    (he : ∀ f, L.ends f → L'.ends f) : L'.Keeps env step :=
  fun s hs => (h s (hi s hs)).mono he fun _ s' => hr s s' hs

/-! ### Composition -/

theorem Keeps.pure (a : α) : L.Keeps env (pure a) := fun s _ => L.refl s

theorem Keeps.bind {step : Build α} {next : α → Build β} (h : L.Keeps env step)
    (hn : ∀ a, L.Keeps env (next a)) : L.Keeps env (step >>= next) := by
  intro s hs
  rw [meets_bind]
  refine (h s hs).imp fun a s' hr => ?_
  exact (hn a s' (L.mono hs hr)).imp fun _ s'' hr' => L.trans hr hr'

theorem Keeps.map {step : Build α} (f : α → β) (h : L.Keeps env step) :
    L.Keeps env (f <$> step) := by
  intro s hs
  rw [meets_map]
  exact h s hs

theorem Keeps.discard {step : Build α} (h : L.Keeps env step) :
    L.Keeps env (discard step) := by
  intro s hs
  rw [meets_discard]
  exact h s hs

theorem Keeps.ite {c : Prop} [Decidable c] {a b : Build α} (ha : c → L.Keeps env a)
    (hb : ¬c → L.Keeps env b) : L.Keeps env (if c then a else b) := by
  split
  · next h => exact ha h
  · next h => exact hb h

/-- A step that is taken under a condition only, and what follows in any case. -/
theorem Keeps.when {c : Prop} [Decidable c] {step : Build Unit} {next : Unit → Build α}
    (hs : c → L.Keeps env step) (hn : ∀ u, L.Keeps env (next u)) :
    L.Keeps env (if c then step >>= next else next ()) :=
  .ite (fun h => .bind (hs h) hn) fun _ => hn ()

theorem Keeps.fail {c : Cause} (h : c.isCycle = false) : L.Keeps env (fail c : Build α) :=
  fun _ _ => L.ordinary h

theorem Keeps.located {id : NodeId} {step : Build α} (h : L.Keeps env step) :
    L.Keeps env (Build.located id step) :=
  fun s hs => (h s hs).located fun _ => L.located

/-- What a step in a stage keeps to, when the law in that stage is another one. -/
theorem Keeps.inStage {L' : Law} {t : Stage} {step : Build α} (h : L'.Keeps (within env t) step)
    (hi : ∀ s, L.inv env s → L'.inv (within env t) s)
    (hr : ∀ s s', L'.rel [] s s' → L.rel [] s s') (he : ∀ f, L'.ends f → L.ends f) :
    L.Keeps env (inStage t step) := by
  intro s hs
  rw [meets_inStage]
  exact (h s (hi s hs)).mono he fun _ s' => hr s s'

/-! ### Values -/

theorem Yields.keeps {step : Build α} {P : α → Prop} (h : L.Yields env step P) :
    L.Keeps env step :=
  fun s hs => (h s hs).imp fun _ _ hp => hp.1

theorem Yields.ofKeeps {step : Build α} {P : α → Prop} (h : L.Keeps env step) (hp : ∀ a, P a) :
    L.Yields env step P :=
  fun s hs => (h s hs).imp fun a _ hr => ⟨hr, hp a⟩

theorem Keeps.using {step : Build α} {next : α → Build β} {P : α → Prop}
    (h : L.Yields env step P) (hn : ∀ a, P a → L.Keeps env (next a)) :
    L.Keeps env (step >>= next) := by
  intro s hs
  rw [meets_bind]
  refine (h s hs).imp fun a s' hp => ?_
  exact (hn a hp.2 s' (L.mono hs hp.1)).imp fun _ s'' hr => L.trans hp.1 hr

theorem Yields.after {step : Build α} {next : α → Build β} {P : β → Prop}
    (h : L.Keeps env step) (hn : ∀ a, L.Yields env (next a) P) :
    L.Yields env (step >>= next) P := by
  intro s hs
  rw [meets_bind]
  refine (h s hs).imp fun a s' hr => ?_
  exact (hn a s' (L.mono hs hr)).imp fun _ s'' hp => ⟨L.trans hr hp.1, hp.2⟩

theorem Yields.pure {P : α → Prop} {a : α} (h : P a) : L.Yields env (Pure.pure a) P :=
  fun s _ => ⟨L.refl s, h⟩

theorem Yields.map {step : Build α} {f : α → β} {P : α → Prop} {Q : β → Prop}
    (h : L.Yields env step P) (hf : ∀ a, P a → Q (f a)) : L.Yields env (f <$> step) Q := by
  intro s hs
  rw [meets_map]
  exact (h s hs).imp fun a _ hp => ⟨hp.1, hf a hp.2⟩

theorem Yields.imp {step : Build α} {P Q : α → Prop} (h : L.Yields env step P)
    (hp : ∀ a, P a → Q a) : L.Yields env step Q :=
  fun s hs => (h s hs).imp fun a _ hr => ⟨hr.1, hp a hr.2⟩

theorem Yields.bind {step : Build α} {next : α → Build β} {P : α → Prop} {Q : β → Prop}
    (h : L.Yields env step P) (hn : ∀ a, P a → L.Yields env (next a) Q) :
    L.Yields env (step >>= next) Q := by
  intro s hs
  rw [meets_bind]
  refine (h s hs).imp fun a s' hp => ?_
  exact (hn a hp.2 s' (L.mono hs hp.1)).imp fun _ s'' hq => ⟨L.trans hp.1 hq.1, hq.2⟩

theorem Yields.fail {c : Cause} {P : α → Prop} (h : c.isCycle = false) :
    L.Yields env (fail c) P :=
  fun _ _ => L.ordinary h

/-- A value that a check lets pass. -/
theorem Yields.check {c : Prop} [Decidable c] {cause : Cause} {next : Unit → Build α} {P : α → Prop}
    (h : cause.isCycle = false) (hn : ¬c → L.Yields env (next ()) P) :
    L.Yields env (if c then Build.fail cause >>= next else next ()) P := by
  split
  · exact fun _ _ => L.ordinary h
  · next hc => exact hn hc

theorem Yields.ite {c : Prop} [Decidable c] {a b : Build α} {P : α → Prop}
    (ha : c → L.Yields env a P) (hb : ¬c → L.Yields env b P) :
    L.Yields env (if c then a else b) P := by
  split
  · next h => exact ha h
  · next h => exact hb h

/-- A step that is taken under a condition only, and what follows in any case. -/
theorem Yields.when {c : Prop} [Decidable c] {step : Build Unit} {next : Unit → Build α}
    {P : α → Prop} (hs : c → L.Keeps env step) (hn : ∀ u, L.Yields env (next u) P) :
    L.Yields env (if c then step >>= next else next ()) P :=
  .ite (fun h => .after (hs h) hn) fun _ => hn ()

theorem Yields.located {id : NodeId} {step : Build α} {P : α → Prop} (h : L.Yields env step P) :
    L.Yields env (Build.located id step) P :=
  fun s hs => (h s hs).located fun _ => L.located

/-! ### Steps that only look -/

theorem Keeps.read {next : Env → Build α} (h : L.Keeps env (next env)) :
    L.Keeps env (MonadReader.read >>= next) :=
  fun s hs => h s hs

theorem Keeps.get {next : BuildState → Build α} (h : ∀ s, L.Keeps env (next s)) :
    L.Keeps env (MonadState.get >>= next) :=
  fun s hs => h s s hs

theorem Keeps.stage : L.Keeps env stage := fun s _ => L.refl s

theorem Keeps.dialect : L.Keeps env dialect := fun s _ => L.refl s

theorem Keeps.here : L.Keeps env here := fun s _ => L.refl s

theorem Keeps.ofExcept {ε : Type} [Coe ε Cause] {r : Except ε α}
    (h : ∀ e, r = .error e → (e : Cause).isCycle = false) :
    L.Keeps env (Build.ofExcept r) := by
  cases r with
  | ok a => exact .pure a
  | error e => exact .fail (h e rfl)

theorem Yields.ofExcept {ε : Type} [Coe ε Cause] {r : Except ε α} {P : α → Prop}
    (h : ∀ e, r = .error e → (e : Cause).isCycle = false) (hp : ∀ a, r = .ok a → P a) :
    L.Yields env (Build.ofExcept r) P := by
  cases r with
  | ok a => exact .pure (hp a rfl)
  | error e => exact .fail (h e rfl)

theorem Keeps.resolve {id : NodeId} {next : NodeId → Build α}
    (h : ∀ m, env.plan.resolve id = .ok m → L.Keeps env (next m)) :
    L.Keeps env (Build.resolve id >>= next) := by
  intro s hs
  rw [meets_bind, meets_resolve]
  cases hr : env.plan.resolve id with
  | ok m => exact h m hr s hs
  | error e => exact L.ordinary (Cause.isCycle_of_isOfWalk (resolve_error hr))

theorem Keeps.node {id : NodeId} {next : Node → Build α}
    (h : ∀ n, env.plan.node id = .ok n → L.Keeps env (next n)) :
    L.Keeps env (Build.node id >>= next) := by
  intro s hs
  rw [meets_bind, meets_node]
  cases hr : env.plan.node id with
  | ok n => exact h n hr s hs
  | error e => exact L.ordinary (Cause.isCycle_of_isOfWalk (node_error hr))

theorem Keeps.structMembers {name : String} {next : List Member → Build α}
    (h : ∀ members, env.plan.structs.get? name = some members → L.Keeps env (next members)) :
    L.Keeps env (Build.structMembers name >>= next) := by
  intro s hs
  rw [meets_bind, meets_structMembers]
  cases hr : env.plan.structs.get? name with
  | some members => exact h members hr s hs
  | none => exact L.ordinary rfl

theorem Yields.read {next : Env → Build α} {P : α → Prop} (h : L.Yields env (next env) P) :
    L.Yields env (MonadReader.read >>= next) P :=
  fun s hs => h s hs

/-- A value that depends on the state, which meets what the law asks for. -/
theorem Yields.get {next : BuildState → Build α} {P : α → Prop}
    (h : ∀ s, L.inv env s → L.Yields env (next s) P) :
    L.Yields env (MonadState.get >>= next) P :=
  fun s hs => h s hs s hs

theorem Yields.here {next : StageBuild → Build α} {P : α → Prop}
    (h : ∀ s, L.inv env s → L.Yields env (next (s.stages.get env.stage)) P) :
    L.Yields env (Build.here >>= next) P :=
  fun s hs => h s hs s hs

theorem Yields.resolve {id : NodeId} {next : NodeId → Build α} {P : α → Prop}
    (h : ∀ m, env.plan.resolve id = .ok m → L.Yields env (next m) P) :
    L.Yields env (Build.resolve id >>= next) P := by
  intro s hs
  rw [meets_bind, meets_resolve]
  cases hr : env.plan.resolve id with
  | ok m => exact h m hr s hs
  | error e => exact L.ordinary (Cause.isCycle_of_isOfWalk (resolve_error hr))

theorem Yields.node {id : NodeId} {next : Node → Build α} {P : α → Prop}
    (h : ∀ n, env.plan.node id = .ok n → L.Yields env (next n) P) :
    L.Yields env (Build.node id >>= next) P := by
  intro s hs
  rw [meets_bind, meets_node]
  cases hr : env.plan.node id with
  | ok n => exact h n hr s hs
  | error e => exact L.ordinary (Cause.isCycle_of_isOfWalk (node_error hr))

/-! ### Lists of steps -/

theorem Keeps.mapM {f : α → Build β} {xs : List α} (h : ∀ x ∈ xs, L.Keeps env (f x)) :
    L.Keeps env (xs.mapM f) := by
  induction xs with
  | nil =>
    rw [List.mapM_nil]
    exact .pure []
  | cons x rest ih =>
    rw [List.mapM_cons]
    refine .bind (h x (.head _)) fun y => ?_
    exact .bind (ih fun x' hx' => h x' (.tail _ hx')) fun ys => .pure _

/-- What the steps of a list yield, when each yields what a partial function gives. -/
theorem Yields.mapM {f : α → Build β} {g : α → Option β} {xs : List α}
    (h : ∀ x ∈ xs, L.Yields env (f x) fun y => g x = some y) :
    L.Yields env (xs.mapM f) fun ys => xs.mapM g = some ys := by
  induction xs with
  | nil =>
    rw [List.mapM_nil]
    exact .pure rfl
  | cons x rest ih =>
    rw [List.mapM_cons]
    refine .bind (h x (.head _)) fun y hy => ?_
    refine .bind (ih fun x' hx' => h x' (.tail _ hx')) fun ys hys => .pure ?_
    rw [List.mapM_cons, hy, Option.bind_eq_bind, Option.bind_some, hys]
    rfl

/-- Every value that the steps of a list yield satisfies what each step yields. -/
theorem Yields.all {f : α → Build β} {P : β → Prop} {xs : List α}
    (h : ∀ x ∈ xs, L.Yields env (f x) P) : L.Yields env (xs.mapM f) fun ys => ∀ y ∈ ys, P y := by
  induction xs with
  | nil =>
    rw [List.mapM_nil]
    exact .pure fun _ hy => nomatch hy
  | cons x rest ih =>
    rw [List.mapM_cons]
    refine .bind (h x (.head _)) fun y hy => ?_
    refine .bind (ih fun x' hx' => h x' (.tail _ hx')) fun ys hys => .pure ?_
    exact List.forall_mem_cons.2 ⟨hy, hys⟩

theorem Keeps.forM {f : α → Build PUnit} {xs : List α} (h : ∀ x ∈ xs, L.Keeps env (f x)) :
    L.Keeps env (xs.forM f) := by
  induction xs with
  | nil => exact .pure _
  | cons x rest ih => exact .bind (h x (.head _)) fun _ => ih fun x' hx' => h x' (.tail _ hx')

theorem Keeps.forIn {f : α → Build Unit} {xs : List α} (h : ∀ x ∈ xs, L.Keeps env (f x)) :
    L.Keeps env
      (ForIn.forIn xs PUnit.unit fun x _ => do
        f x
        Pure.pure (ForInStep.yield PUnit.unit)) := by
  rw [forIn_eq_forM]
  exact .forM h

/-! ### Steps that make sure of something -/

theorem Secures.keeps {step : Build α} {Q : BuildState → Prop} (h : L.Secures env step Q) :
    L.Keeps env step :=
  fun s hs => (h s hs).imp fun _ _ hq => hq.1

theorem Secures.after {step : Build α} {next : α → Build β} {Q : BuildState → Prop}
    (h : L.Keeps env step) (hn : ∀ a, L.Secures env (next a) Q) :
    L.Secures env (step >>= next) Q := by
  intro s hs
  rw [meets_bind]
  refine (h s hs).imp fun a s' hr => ?_
  exact (hn a s' (L.mono hs hr)).imp fun _ s'' hq => ⟨L.trans hr hq.1, hq.2⟩

/-- A list of steps makes sure of what each of them does, when the others leave it as it is. -/
theorem Secures.forM {f : α → Build PUnit} {xs : List α} {Q : α → BuildState → Prop}
    (stable : ∀ x s s', L.rel [] s s' → Q x s → Q x s')
    (h : ∀ x ∈ xs, L.Secures env (f x) (Q x)) :
    L.Secures env (xs.forM f) fun s => ∀ x ∈ xs, Q x s := by
  induction xs with
  | nil => exact fun s _ => ⟨L.refl s, fun x hx => nomatch hx⟩
  | cons x rest ih =>
    intro s hs
    show Meets (f x >>= fun _ => rest.forM f) env s L.ends _
    rw [meets_bind]
    refine (h x (.head _) s hs).imp fun _ s' hq => ?_
    have tail := ih (fun y hy => h y (.tail _ hy)) s' (L.mono hs hq.1)
    refine tail.imp fun _ s'' hq' => ⟨L.trans hq.1 hq'.1, fun y hy => ?_⟩
    rcases List.mem_cons.1 hy with rfl | hy
    · exact stable y _ _ hq'.1 hq.2
    · exact hq'.2 y hy

end Law

/-! ### What steps make -/

/-- Which items the states of a build provide for. -/
structure Supply (γ : Type) where
  inv : Env → BuildState → Prop
  rel : Env → BuildState → BuildState → Prop
  has : Env → BuildState → γ → Prop
  refl : ∀ {env} s, rel env s s
  trans : ∀ {env s s' s''}, rel env s s' → rel env s' s'' → rel env s s''
  mono : ∀ {env s s'}, inv env s → rel env s s' → inv env s'
  keep : ∀ {env s s' x}, rel env s s' → has env s x → has env s' x

namespace Supply

open Build

variable {α β γ : Type} {S : Supply γ} {env : Env} {given given' : List γ}

/-- Where the items `given` are provided for, so are those that the step makes. -/
def Makes (S : Supply γ) (env : Env) (given : List γ) (step : Build α) (made : α → List γ) : Prop :=
  ∀ s, S.inv env s → (∀ x ∈ given, S.has env s x) →
    Meets step env s (fun _ => True) fun a s' => S.rel env s s' ∧ ∀ x ∈ made a, S.has env s' x

namespace Makes

variable {made : α → List γ} {made' : β → List γ} {step : Build α}

theorem mono (h : S.Makes env given step made) (hg : given ⊆ given') :
    S.Makes env given' step made :=
  fun s hs hp => h s hs fun x hx => hp x (hg hx)

theorem pure {a : α}
    (h : ∀ s, (∀ x ∈ given, S.has env s x) → ∀ x ∈ made a, S.has env s x) :
    S.Makes env given (pure a) made :=
  fun s _ hp => ⟨S.refl s, h s hp⟩

theorem bind {next : α → Build β} (h : S.Makes env given step made)
    (hn : ∀ a, S.Makes env (made a ++ given) (next a) made') :
    S.Makes env given (step >>= next) made' := by
  intro s hs hp
  rw [meets_bind]
  refine (h s hs hp).imp fun a s' ⟨goes, has⟩ => ?_
  have all : ∀ x ∈ made a ++ given, S.has env s' x :=
    List.forall_mem_append.2 ⟨has, fun x hx => S.keep goes (hp x hx)⟩
  exact (hn a s' (S.mono hs goes) all).imp fun b s'' h => ⟨S.trans goes h.1, h.2⟩

theorem map (f : α → β) (h : S.Makes env given step fun a => made' (f a)) :
    S.Makes env given (f <$> step) made' := by
  intro s hs hp
  rw [meets_map]
  exact h s hs hp

theorem discard (h : S.Makes env given step made) :
    S.Makes env given (discard step) fun _ => [] := by
  intro s hs hp
  rw [meets_discard]
  exact (h s hs hp).imp fun _ _ h => ⟨h.1, fun _ hx => nomatch hx⟩

theorem fail {c : Cause} : S.Makes env given (Build.fail c) made := fun _ _ _ => trivial

theorem ite {c : Prop} [Decidable c] {a b : Build α} (ha : c → S.Makes env given a made)
    (hb : ¬c → S.Makes env given b made) : S.Makes env given (if c then a else b) made := by
  split
  · next h => exact ha h
  · next h => exact hb h

/-- What a check lets pass. -/
theorem check {c : Prop} [Decidable c] {cause : Cause} {next : Unit → Build α}
    (h : S.Makes env given (next ()) made) :
    S.Makes env given (if c then Build.fail cause >>= next else next ()) made :=
  .ite (fun _ _ _ _ => trivial) fun _ => h

theorem located {id : NodeId} (h : S.Makes env given step made) :
    S.Makes env given (Build.located id step) made :=
  fun s hs hp => (h s hs hp).located fun _ _ => trivial

theorem read {next : Env → Build α} (h : S.Makes env given (next env) made) :
    S.Makes env given (MonadReader.read >>= next) made := fun s hs hp => h s hs hp

/-- A step that only looks. -/
theorem look {next : α → Build β} (h : Law.looking.Keeps env step)
    (hn : ∀ a, S.Makes env given (next a) made') : S.Makes env given (step >>= next) made' := by
  intro s hs hp
  rw [meets_bind]
  refine (h s trivial).imp fun a s' hs' => ?_
  obtain rfl : s' = s := hs'
  exact hn a s' hs hp

/-- A rule is applied; what it gives is no code. -/
theorem rule {ε : Type} [Coe ε Cause] {r : Except ε α} {next : α → Build β}
    (hn : ∀ a, r = .ok a → S.Makes env given (next a) made') :
    S.Makes env given (Build.ofExcept r >>= next) made' := by
  cases r with
  | ok a => exact fun s hs hp => hn a rfl s hs hp
  | error e => exact fun _ _ _ => trivial

theorem resolve {id : NodeId} {next : NodeId → Build α}
    (h : ∀ m, env.plan.resolve id = .ok m → S.Makes env given (next m) made) :
    S.Makes env given (Build.resolve id >>= next) made := by
  intro s hs hp
  rw [meets_bind, meets_resolve]
  cases hm : env.plan.resolve id with
  | ok m => exact h m hm s hs hp
  | error e => trivial

theorem node {id : NodeId} {next : Node → Build α}
    (h : ∀ n, env.plan.node id = .ok n → S.Makes env given (next n) made) :
    S.Makes env given (Build.node id >>= next) made := by
  intro s hs hp
  rw [meets_bind, meets_node]
  cases hn : env.plan.node id with
  | ok n => exact h n hn s hs hp
  | error e => trivial

theorem structMembers {name : String} {next : List Member → Build α}
    (h : ∀ members, S.Makes env given (next members) made) :
    S.Makes env given (Build.structMembers name >>= next) made := by
  intro s hs hp
  rw [meets_bind, meets_structMembers]
  cases env.plan.structs.get? name with
  | some members => exact h members s hs hp
  | none => trivial

/-- The items of all values together. -/
theorem mapM {f : α → Build β} {xs : List α} (h : ∀ x ∈ xs, S.Makes env given (f x) made') :
    S.Makes env given (xs.mapM f) fun ys => ys.flatMap made' := by
  induction xs with
  | nil =>
    rw [List.mapM_nil]
    exact .pure fun _ _ _ hx => nomatch hx
  | cons x rest ih =>
    rw [List.mapM_cons]
    have others := (ih fun x' hx' => h x' (.tail _ hx'))
    refine .bind (h x (.head _)) fun y => .bind (others.mono (List.subset_append_right _ _))
      fun ys => .pure fun s hp => ?_
    rw [List.flatMap_cons]
    rw [← List.append_assoc, List.forall_mem_append] at hp
    exact List.forall_mem_append.2 (List.forall_mem_append.1 hp.1).symm

theorem forM {f : α → Build PUnit} {xs : List α} (h : ∀ x ∈ xs, S.Makes env given (f x) fun _ => []) :
    S.Makes env given (xs.forM f) fun _ => [] := by
  induction xs with
  | nil => exact .pure fun _ _ _ hx => nomatch hx
  | cons x rest ih => exact .bind (h x (.head _)) fun _ => ih fun x' hx' => h x' (.tail _ hx')

end Makes

end Supply

end ShaderGraph
