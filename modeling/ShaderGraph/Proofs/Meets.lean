import ShaderGraph.Build.Place

/-!
# Outcomes of steps

`Build.Meets step env s ends post` says how a step of a build may end when it is taken in the
surroundings `env` from the state `s`: in a value and a state that satisfy `post`, or in a failure
that satisfies `ends`. For each way to compose steps there is a lemma that says what the parts
must meet.
-/

namespace ShaderGraph.Build

variable {α β : Type} {env : Env} {s : BuildState} {ends : Failure → Prop}

/-- A sequence of steps goes on where the first one ended. -/
theorem bind_run (step : Build α) (next : α → Build β) (env : Env) (s : BuildState) :
    (step >>= next) env s =
      match step env s with
      | .ok (a, s') => next a env s'
      | .error f => .error f := by
  show Except.bind (step env s) (fun r => next r.1 env r.2) = _
  cases step env s <;> rfl

/-- A sequence of steps that ends well went through a state between them. -/
theorem of_bind {step : Build α} {next : α → Build β} {b : β} {s' : BuildState}
    (h : (step >>= next) env s = .ok (b, s')) :
    ∃ a s₁, step env s = .ok (a, s₁) ∧ next a env s₁ = .ok (b, s') := by
  rw [bind_run] at h
  split at h
  · next a s₁ hstep => exact ⟨a, s₁, hstep, h⟩
  · cases h

/-- The step ends in a value and a state that satisfy `post`, or in a failure that satisfies
`ends`. -/
def Meets (step : Build α) (env : Env) (s : BuildState) (ends : Failure → Prop)
    (post : α → BuildState → Prop) : Prop :=
  match step env s with
  | .ok (a, s') => post a s'
  | .error f => ends f

theorem meets_of_ok {step : Build α} {post : α → BuildState → Prop} {a : α} {s' : BuildState}
    (h : step env s = .ok (a, s')) : Meets step env s ends post ↔ post a s' := by
  rw [Meets, h]

theorem meets_of_error {step : Build α} {post : α → BuildState → Prop} {f : Failure}
    (h : step env s = .error f) : Meets step env s ends post ↔ ends f := by
  rw [Meets, h]

/-- A step that ends well satisfies its postcondition. -/
theorem Meets.post {step : Build α} {post : α → BuildState → Prop} {a : α} {s' : BuildState}
    (hm : Meets step env s ends post) (h : step env s = .ok (a, s')) : post a s' :=
  (meets_of_ok h).1 hm

/-- A step that fails satisfies what is said of its failures. -/
theorem Meets.failure {step : Build α} {post : α → BuildState → Prop} {f : Failure}
    (hm : Meets step env s ends post) (h : step env s = .error f) : ends f :=
  (meets_of_error h).1 hm

theorem Meets.mono {step : Build α} {ends' : Failure → Prop} {post post' : α → BuildState → Prop}
    (hm : Meets step env s ends post) (he : ∀ f, ends f → ends' f)
    (hp : ∀ a s', post a s' → post' a s') : Meets step env s ends' post' := by
  unfold Meets at *
  split at hm
  · exact hp _ _ hm
  · exact he _ hm

/-- What is true of every end of a step may be used when its postcondition is weakened. -/
theorem Meets.imp {step : Build α} {post post' : α → BuildState → Prop}
    (hm : Meets step env s ends post) (hp : ∀ a s', post a s' → post' a s') :
    Meets step env s ends post' :=
  hm.mono (fun _ h => h) hp

theorem Meets.and {step : Build α} {post post' : α → BuildState → Prop}
    (hm : Meets step env s ends post) (hm' : Meets step env s (fun _ => True) post') :
    Meets step env s ends fun a s' => post a s' ∧ post' a s' := by
  unfold Meets at *
  split at hm
  · next h =>
    rw [h] at hm'
    exact ⟨hm, hm'⟩
  · exact hm

/-! ### Composition -/

@[simp] theorem meets_pure (a : α) (post : α → BuildState → Prop) :
    Meets (pure a : Build α) env s ends post ↔ post a s := Iff.rfl

@[simp] theorem meets_bind (step : Build α) (next : α → Build β) (post : β → BuildState → Prop) :
    Meets (step >>= next) env s ends post ↔
      Meets step env s ends fun a s' => Meets (next a) env s' ends post := by
  have h : (step >>= next) env s =
      match step env s with
      | .ok (a, s') => next a env s'
      | .error f => .error f := by
    show (do let (a, s') ← step env s; next a env s' : Except Failure (β × BuildState)) = _
    cases step env s <;> rfl
  unfold Meets
  rw [h]
  cases step env s <;> rfl

@[simp] theorem meets_map (f : α → β) (step : Build α) (post : β → BuildState → Prop) :
    Meets (f <$> step) env s ends post ↔ Meets step env s ends fun a s' => post (f a) s' := by
  rw [← bind_pure_comp, meets_bind]
  rfl

@[simp] theorem meets_discard (step : Build α) (post : PUnit → BuildState → Prop) :
    Meets (discard step) env s ends post ↔ Meets step env s ends fun _ s' => post ⟨⟩ s' := by
  show Meets ((fun _ => PUnit.unit) <$> step) env s ends post ↔ _
  rw [meets_map]

@[simp] theorem meets_ite {c : Prop} [Decidable c] (a b : Build α)
    (post : α → BuildState → Prop) :
    Meets (if c then a else b) env s ends post ↔
      (c → Meets a env s ends post) ∧ (¬c → Meets b env s ends post) := by
  split <;> simp [*]

/-! ### Surroundings and state -/

@[simp] theorem meets_read (post : Env → BuildState → Prop) :
    Meets read env s ends post ↔ post env s := Iff.rfl

@[simp] theorem meets_get (post : BuildState → BuildState → Prop) :
    Meets get env s ends post ↔ post s s := Iff.rfl

@[simp] theorem meets_modify (f : BuildState → BuildState)
    (post : PUnit → BuildState → Prop) :
    Meets (modify f) env s ends post ↔ post ⟨⟩ (f s) := Iff.rfl

@[simp] theorem meets_modifyGet (f : BuildState → α × BuildState)
    (post : α → BuildState → Prop) :
    Meets (modifyGet f) env s ends post ↔ post (f s).1 (f s).2 := Iff.rfl

@[simp] theorem meets_withReader (f : Env → Env) (step : Build α)
    (post : α → BuildState → Prop) :
    Meets (withReader f step) env s ends post ↔ Meets step (f env) s ends post := Iff.rfl

@[simp] theorem meets_modifyHere (f : StageBuild → StageBuild)
    (post : Unit → BuildState → Prop) :
    Meets (modifyHere f) env s ends post ↔
      post () { s with stages := s.stages.modify env.stage f } := Iff.rfl

@[simp] theorem meets_here (post : StageBuild → BuildState → Prop) :
    Meets here env s ends post ↔ post (s.stages.get env.stage) s := Iff.rfl

@[simp] theorem meets_stage (post : Stage → BuildState → Prop) :
    Meets stage env s ends post ↔ post env.stage s := Iff.rfl

@[simp] theorem meets_dialect (post : Dialect → BuildState → Prop) :
    Meets dialect env s ends post ↔ post env.plan.options.dialect s := Iff.rfl

/-! ### Failures -/

@[simp] theorem meets_fail (c : Cause) (post : α → BuildState → Prop) :
    Meets (fail c) env s ends post ↔ ends (.refused (.ofCause c)) := Iff.rfl

/-- What a check lets pass. -/
theorem meets_check {c : Prop} [Decidable c] {cause : Cause} {next : Unit → Build α}
    {post : α → BuildState → Prop} (h : ¬c → Meets (next ()) env s (fun _ => True) post) :
    Meets (if c then fail cause >>= next else next ()) env s (fun _ => True) post :=
  (meets_ite _ _ _).2 ⟨fun _ => trivial, h⟩

@[simp] theorem meets_exhaust (post : α → BuildState → Prop) :
    Meets exhaust env s ends post ↔ ends .exhausted := Iff.rfl

theorem meets_ofExcept {ε : Type} [Coe ε Cause] (r : Except ε α)
    (post : α → BuildState → Prop) :
    Meets (ofExcept r) env s ends post ↔
      match r with
      | .ok a => post a s
      | .error e => ends (.refused (.ofCause e)) := by
  cases r <;> rfl

@[simp] theorem meets_located (id : NodeId) (step : Build α) (post : α → BuildState → Prop) :
    Meets (located id step) env s ends post ↔
      Meets step env s (fun f => ends (locate env id f)) post := by
  unfold Meets located
  cases step env s <;> rfl

/-- A step at a node meets what the step itself meets, when the report of the node changes
nothing about failures. -/
theorem Meets.located {step : Build α} {post : α → BuildState → Prop} {id : NodeId}
    (hm : Meets step env s ends post) (hl : ∀ f, ends f → ends (locate env id f)) :
    Meets (located id step) env s ends post :=
  (meets_located id step post).2 (hm.mono hl fun _ _ h => h)

/-- A build that goes on after a rule goes on with its value. -/
theorem of_ofExcept {ε : Type} [Coe ε Cause] {r : Except ε α} {next : α → Build β} {b : β}
    {s' : BuildState} (h : (ofExcept r >>= next) env s = .ok (b, s')) :
    ∃ a, r = .ok a ∧ next a env s = .ok (b, s') := by
  cases r with
  | ok a => exact ⟨a, rfl, h⟩
  | error e => cases h

/-! ### The plan -/

theorem meets_resolve (id : NodeId) (post : NodeId → BuildState → Prop) :
    Meets (resolve id) env s ends post ↔
      match env.plan.resolve id with
      | .ok m => post m s
      | .error e => ends (.refused (.ofCause e)) := by
  unfold resolve
  rw [meets_bind, meets_read, meets_ofExcept]
  cases env.plan.resolve id <;> rfl

theorem meets_node (id : NodeId) (post : Node → BuildState → Prop) :
    Meets (node id) env s ends post ↔
      match env.plan.node id with
      | .ok n => post n s
      | .error e => ends (.refused (.ofCause e)) := by
  unfold node
  rw [meets_bind, meets_read, meets_ofExcept]
  cases env.plan.node id <;> rfl

theorem meets_structMembers (name : String) (post : List Member → BuildState → Prop) :
    Meets (structMembers name) env s ends post ↔
      match env.plan.structs.get? name with
      | some members => post members s
      | none => ends (.refused (.ofCause (LayoutError.undeclaredStruct name))) := by
  unfold structMembers
  rw [meets_bind, meets_read]
  cases env.plan.structs.get? name <;> rfl

/-! ### Scopes -/

/-- What is seen inside a context node. -/
def inside (env : Env) (frame : FrameId) (values : List (String × NodeId)) : Env :=
  { env with frames := ⟨frame, values⟩ :: env.frames }

theorem meets_inContext (id : NodeId) (values : List (String × NodeId)) (step : Build α)
    (post : α → BuildState → Prop) :
    Meets (inContext id values step) env s ends post ↔
      Meets step (inside env (s.frames.extend (Frame.current env.frames) id).1 values)
        { s with frames := (s.frames.extend (Frame.current env.frames) id).2 } ends post := by
  unfold inContext
  rw [meets_bind, meets_read, meets_bind, meets_modifyGet, meets_withReader]
  rfl

theorem meets_withContextValue (key : String) (fallback : Option NodeId) (step : NodeId → Build α)
    (post : α → BuildState → Prop) :
    Meets (withContextValue key fallback step) env s ends post ↔
      match Frame.lookup? key env.frames, fallback with
      | some (c, outer), _ => Meets (step c) { env with frames := outer } s ends post
      | none, some c => Meets (step c) env s ends post
      | none, none => ends (.refused (.ofCause (ScopeError.contextValue key))) := by
  unfold withContextValue
  rw [meets_bind, meets_read]
  cases Frame.lookup? key env.frames with
  | some found => rfl
  | none => cases fallback <;> rfl

theorem meets_cacheScope (id : NodeId) (shares : Bool) (post : ScopeId → BuildState → Prop) :
    Meets (cacheScope id shares) env s ends post ↔
      post (s.cache.scopeFor env.scope id shares).1
        { s with cache := (s.cache.scopeFor env.scope id shares).2 } := Iff.rfl

@[simp] theorem meets_inScope (scope : ScopeId) (step : Build α)
    (post : α → BuildState → Prop) :
    Meets (inScope scope step) env s ends post ↔
      Meets step { env with scope := scope } s ends post := Iff.rfl

/-- What is seen in a stage. -/
def within (env : Env) (stage : Stage) : Env :=
  if stage = env.stage then env else { env with stage := stage, loops := [] }

theorem stage_within (env : Env) (stage : Stage) : (within env stage).stage = stage := by
  unfold within
  split
  · next h => exact h.symm
  · rfl

theorem meets_inStage (stage : Stage) (step : Build α) (post : α → BuildState → Prop) :
    Meets (inStage stage step) env s ends post ↔ Meets step (within env stage) s ends post := by
  unfold inStage within
  rw [meets_bind, meets_read]
  split <;> rfl

/-! ### Lists of steps -/

theorem forIn_eq_forM (f : α → Build Unit) (xs : List α) :
    (ForIn.forIn xs PUnit.unit fun x _ => do
      f x
      pure (ForInStep.yield PUnit.unit)) = xs.forM f := by
  induction xs with
  | nil => rfl
  | cons x rest ih =>
    simp only [List.forIn_cons, bind_assoc, pure_bind, ih]
    rfl

/-- A list of steps one after the other; `inv done` holds after the steps for `done`. -/
theorem meets_forM {f : α → Build PUnit} {xs : List α} (inv : List α → BuildState → Prop)
    (start : inv [] s)
    (step : ∀ done x s, x ∈ xs → inv done s →
      Meets (f x) env s ends fun _ s' => inv (done ++ [x]) s') :
    Meets (xs.forM f) env s ends fun _ s' => inv xs s' := by
  -- the steps for `done` were taken, those for `rest` are to come
  have go : ∀ (done rest : List α) (s : BuildState), done ++ rest = xs → inv done s →
      Meets (rest.forM f) env s ends fun _ s' => inv xs s' := by
    intro done rest
    induction rest generalizing done with
    | nil =>
      intro s h hi
      rw [List.append_nil] at h
      exact h ▸ hi
    | cons x rest ih =>
      intro s h hi
      show Meets (f x >>= fun _ => rest.forM f) env s ends _
      rw [meets_bind]
      have hx : x ∈ xs := h ▸ List.mem_append_right _ (.head _)
      refine (step done x s hx hi).imp fun _ s' hi' => ?_
      exact ih (done ++ [x]) s' (by rw [← h, List.append_assoc]; rfl) hi'
  exact go [] xs s rfl start

/-- A list of steps that return values; `inv done values` holds after the steps for `done`. -/
theorem meets_mapM {f : α → Build β} {xs : List α} (inv : List α → List β → BuildState → Prop)
    (start : inv [] [] s)
    (step : ∀ done ys x s, x ∈ xs → inv done ys s →
      Meets (f x) env s ends fun y s' => inv (done ++ [x]) (ys ++ [y]) s') :
    Meets (xs.mapM f) env s ends fun ys s' => inv xs ys s' := by
  -- the steps for `done` were taken, those for `rest` are to come
  have go : ∀ (done rest : List α) (ys : List β) (s : BuildState), done ++ rest = xs →
      inv done ys s →
        Meets (rest.mapM f) env s ends fun zs s' => inv xs (ys ++ zs) s' := by
    intro done rest
    induction rest generalizing done with
    | nil =>
      intro ys s h hi
      rw [List.append_nil] at h
      rw [List.mapM_nil, meets_pure, List.append_nil]
      exact h ▸ hi
    | cons x rest ih =>
      intro ys s h hi
      rw [List.mapM_cons, meets_bind]
      have hx : x ∈ xs := h ▸ List.mem_append_right _ (.head _)
      refine (step done ys x s hx hi).imp fun y s' hi' => ?_
      rw [meets_bind]
      refine (ih (done ++ [x]) (ys ++ [y]) s' ?_ hi').imp fun zs s'' h => ?_
      · rw [← h, List.append_assoc, List.singleton_append]
      · rw [meets_pure, ← List.singleton_append, ← List.append_assoc]
        exact h
  exact go [] xs [] s rfl start

/-! ### Values -/

/-- Whatever the step returns satisfies `P`. -/
def Returns (P : α → Prop) (step : Build α) : Prop :=
  ∀ env s, Meets step env s (fun _ => True) fun a _ => P a

theorem meets_true (step : Build α) : Meets step env s (fun _ => True) fun _ _ => True := by
  unfold Meets
  split <;> trivial

theorem Returns.pure {P : α → Prop} {a : α} (h : P a) : Returns P (pure a) := fun _ _ => h

theorem Returns.fail {P : α → Prop} (c : Cause) : Returns P (fail c) := fun _ _ => trivial

theorem Returns.bind {P : β → Prop} {step : Build α} {next : α → Build β}
    (h : ∀ a, Returns P (next a)) : Returns P (step >>= next) := by
  intro env s
  rw [meets_bind]
  exact (meets_true step).imp fun a s' _ => h a env s'

theorem Returns.ite {P : α → Prop} {c : Prop} [Decidable c] {a b : Build α}
    (ha : Returns P a) (hb : Returns P b) : Returns P (if c then a else b) := by
  split
  · exact ha
  · exact hb

theorem Returns.when {P : α → Prop} {c : Prop} [Decidable c] {step : Build Unit}
    {next : Unit → Build α} (h : ∀ u, Returns P (next u)) :
    Returns P (if c then step >>= next else next ()) := .ite (.bind h) (h ())

/-! ### Parts of places -/

/-- The code of a node as a place of type `type`. -/
def ownPlace (g : Generator) (id : NodeId) (type : ValueType) : Build Expr := do
  match ← g.emit id with
  | some e => return e
  | none => fail (TypeError.noValue type)

/-- Components of a place. -/
def swizzlePlace (g : Generator) (base : NodeId) (components : String) : Build Expr := do
  let (e, t) ← g.place base
  return .swizzle e (← ofExcept (Swizzle.read components t.components))

end ShaderGraph.Build
