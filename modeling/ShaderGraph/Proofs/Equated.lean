import ShaderGraph.Proofs.Survey

/-!
# Steps that go alike under a law

`Law.Equates` says of two steps that from every state and in all surroundings where a law holds they
end alike, and that they keep to the law. For each way to compose steps there is a lemma that
composes what goes alike. So where one generator goes like another one, all that is built from it
does, and a generator can be compared with one that checks what it makes.
-/

namespace ShaderGraph.Law

open Build

variable {L : Law} {α β : Type} {env : Env} {P : α → Prop} {Q : β → Prop}

/-- Where the law holds the steps end alike; they keep to the law, and their value satisfies `P`. -/
structure Equates (L : Law) (env : Env) (step step' : Build α) (P : α → Prop) : Prop where
  same : ∀ s, L.inv env s → step' env s = step env s
  yields : L.Yields env step P

/-- Where the law holds the steps end alike and keep to it. -/
def Alike (L : Law) (env : Env) (step step' : Build α) : Prop :=
  L.Equates env step step' fun _ => True

namespace Equates

variable {step step' : Build α}

/-- A step goes like itself. -/
theorem own (h : L.Yields env step P) : L.Equates env step step P := ⟨fun _ _ => rfl, h⟩

theorem kept (h : L.Keeps env step) : L.Alike env step step := own (.ofKeeps h fun _ => trivial)

theorem imp {P' : α → Prop} (h : L.Equates env step step' P) (hp : ∀ a, P a → P' a) :
    L.Equates env step step' P' := ⟨h.same, h.yields.imp hp⟩

/-! ### Composition -/

theorem pure {a : α} (h : P a) : L.Equates env (Pure.pure a) (Pure.pure a) P := own (.pure h)

theorem fail {c : Cause} (h : c.isCycle = false) :
    L.Equates env (Build.fail c) (Build.fail c) P := own (.fail h)

theorem bind {next next' : α → Build β} (h : L.Equates env step step' P)
    (hn : ∀ a, P a → L.Equates env (next a) (next' a) Q) :
    L.Equates env (step >>= next) (step' >>= next') Q where
  same s hs := by
    rw [bind_run, bind_run, h.same s hs]
    cases hr : step env s with
    | error f => rfl
    | ok r =>
      obtain ⟨rel, value⟩ := (h.yields s hs).post hr
      exact (hn r.1 value).same r.2 (L.mono hs rel)
  yields := h.yields.bind fun a ha => (hn a ha).yields

/-- A step that both begin with. -/
theorem after {next next' : α → Build β} (h : L.Keeps env step)
    (hn : ∀ a, L.Equates env (next a) (next' a) Q) :
    L.Equates env (step >>= next) (step >>= next') Q :=
  (kept h).bind fun a _ => hn a

/-- A step that both begin with, whose value is known. -/
theorem following {next next' : α → Build β} (h : L.Yields env step P)
    (hn : ∀ a, P a → L.Equates env (next a) (next' a) Q) :
    L.Equates env (step >>= next) (step >>= next') Q := (own h).bind hn

theorem map {f : α → β} (h : L.Equates env step step' P) (hf : ∀ a, P a → Q (f a)) :
    L.Equates env (f <$> step) (f <$> step') Q := by
  rw [← bind_pure_comp, ← bind_pure_comp]
  exact h.bind fun a ha => .pure (hf a ha)

theorem ite {c : Prop} [Decidable c] {a a' b b' : Build α} (ha : c → L.Equates env a a' P)
    (hb : ¬c → L.Equates env b b' P) :
    L.Equates env (if c then a else b) (if c then a' else b') P := by
  split
  · next h => exact ha h
  · next h => exact hb h

/-- A value that a check lets pass. -/
theorem check {c : Prop} [Decidable c] {cause : Cause} {next next' : Unit → Build α}
    (h : cause.isCycle = false) (hn : ¬c → L.Equates env (next ()) (next' ()) P) :
    L.Equates env (if c then Build.fail cause >>= next else next ())
      (if c then Build.fail cause >>= next' else next' ()) P :=
  .ite (fun _ => ⟨fun _ _ => rfl, fun _ _ => L.ordinary h⟩) hn

theorem discard (h : L.Equates env step step' P) : L.Alike env (discard step) (discard step') :=
  h.map fun _ _ => trivial

theorem located {id : NodeId} (h : L.Equates env step step' P) :
    L.Equates env (Build.located id step) (Build.located id step') P where
  same s hs := by
    unfold Build.located
    rw [h.same s hs]
  yields := h.yields.located

/-! ### What a step begins with -/

theorem read {next next' : Env → Build α} (h : L.Equates env (next env) (next' env) P) :
    L.Equates env (MonadReader.read >>= next) (MonadReader.read >>= next') P :=
  ⟨h.same, h.yields⟩

theorem get {next next' : BuildState → Build α}
    (h : ∀ s, L.inv env s → L.Equates env (next s) (next' s) P) :
    L.Equates env (MonadState.get >>= next) (MonadState.get >>= next') P :=
  ⟨fun s hs => (h s hs).same s hs, fun s hs => (h s hs).yields s hs⟩

theorem resolve {id : NodeId} {next next' : NodeId → Build α}
    (h : ∀ m, env.plan.resolve id = .ok m → L.Equates env (next m) (next' m) P) :
    L.Equates env (Build.resolve id >>= next) (Build.resolve id >>= next') P := by
  have found : L.Yields env (Build.resolve id) fun m => env.plan.resolve id = .ok m := by
    refine .read (.ofExcept (fun _ he => ?_) fun _ hm => hm)
    exact Cause.isCycle_of_isOfWalk (resolve_error he)
  exact .following found h

theorem node {id : NodeId} {next next' : Node → Build α}
    (h : ∀ n, env.plan.node id = .ok n → L.Equates env (next n) (next' n) P) :
    L.Equates env (Build.node id >>= next) (Build.node id >>= next') P := by
  have found : L.Yields env (Build.node id) fun n => env.plan.node id = .ok n := by
    refine .read (.ofExcept (fun _ he => ?_) fun _ hn => hn)
    exact Cause.isCycle_of_isOfWalk (node_error he)
  exact .following found h

/-- What holds of the surroundings may be used. -/
theorem given (h : ∀ s, L.inv env s → L.Equates env step step' P) : L.Equates env step step' P :=
  ⟨fun s hs => (h s hs).same s hs, fun s hs => (h s hs).yields s hs⟩

/-- A step that is taken in other surroundings and from another state, where the law holds too. -/
theorem seen {f : Build α → Build α} {around : BuildState → Env} {entered : BuildState → BuildState}
    (run : ∀ x s, f x env s = x (around s) (entered s))
    (enter : ∀ s, L.inv env s → L.rel [] s (entered s) ∧ L.inv (around s) (entered s))
    (h : ∀ s, L.inv env s → L.Equates (around s) step step' P) :
    L.Equates env (f step) (f step') P where
  same s hs := by
    rw [run, run]
    exact (h s hs).same _ (enter s hs).2
  yields s hs := by
    unfold Meets
    rw [run]
    exact ((h s hs).yields _ (enter s hs).2).imp fun _ _ hr => ⟨L.trans (enter s hs).1 hr.1, hr.2⟩

/-! ### Lists of steps -/

/-- Every value that the steps of a list yield satisfies what each step yields. -/
theorem all {f f' : α → Build β} {xs : List α}
    (h : ∀ x ∈ xs, L.Equates env (f x) (f' x) Q) :
    L.Equates env (xs.mapM f) (xs.mapM f') fun ys => ∀ y ∈ ys, Q y := by
  induction xs with
  | nil =>
    rw [List.mapM_nil, List.mapM_nil]
    exact .pure fun _ hy => nomatch hy
  | cons x rest ih =>
    rw [List.mapM_cons, List.mapM_cons]
    refine .bind (h x (.head _)) fun y hy => ?_
    refine .bind (ih fun x' hx' => h x' (.tail _ hx')) fun ys hys => .pure ?_
    exact List.forall_mem_cons.2 ⟨hy, hys⟩

theorem forM {f f' : α → Build PUnit} {xs : List α} (h : ∀ x ∈ xs, L.Alike env (f x) (f' x)) :
    L.Alike env (xs.forM f) (xs.forM f') := by
  induction xs with
  | nil => exact .pure trivial
  | cons x rest ih => exact (h x (.head _)).bind fun _ _ => ih fun x' hx' => h x' (.tail _ hx')

end Equates

namespace Alike

theorem keeps {step step' : Build α} (h : L.Alike env step step') : L.Keeps env step :=
  h.yields.keeps

/-- At each root of a build the steps go alike. -/
theorem atRoots {p : Plan} {active : List Stage} {step step' : NodeId → Build Unit}
    {roots : List (Stage × NodeId)} {s : BuildState}
    (hs : ∀ r ∈ roots, L.inv (Env.root p active r.1) s)
    (h : ∀ r ∈ roots, L.Alike (Env.root p active r.1) (step r.2) (step' r.2)) :
    Build.atRoots p active step' roots s = Build.atRoots p active step roots s := by
  induction roots generalizing s with
  | nil => rfl
  | cons r rest ih =>
    obtain ⟨t, root⟩ := r
    have first := h _ (.head _)
    have kept := first.keeps s (hs _ (.head _))
    unfold Build.atRoots Build.atRoot
    rw [first.same s (hs _ (.head _))]
    cases hr : step root (Env.root p active t) s with
    | error f => rfl
    | ok out =>
      dsimp only
      refine ih (fun r' hr' => ?_) fun r' hr' => h r' (.tail _ hr')
      exact L.mono (hs r' (.tail _ hr')) (kept.post hr)

end Alike

/-! ### Steps in other surroundings -/

theorem inStage_run (t : Stage) (step : Build α) (s : BuildState) :
    inStage t step env s = step (within env t) s := by
  unfold inStage within
  rw [bind_run]
  show (if t = env.stage then step else _) env s = _
  split <;> rfl

theorem inContext_run (id : NodeId) (values : List (String × NodeId)) (step : Build α)
    (s : BuildState) :
    inContext id values step env s =
      step (inside env (s.frames.extend (Frame.current env.frames) id).1 values)
        { s with frames := (s.frames.extend (Frame.current env.frames) id).2 } := rfl

theorem cacheScope_run (id : NodeId) (shares : Bool) (step : Build α) (s : BuildState) :
    (do inScope (← cacheScope id shares) step) env s =
      step { env with scope := (s.cache.scopeFor env.scope id shares).1 }
        { s with cache := (s.cache.scopeFor env.scope id shares).2 } := rfl

end ShaderGraph.Law
