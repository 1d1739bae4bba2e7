import Mathlib.Data.List.Destutter
import ShaderGraph.Build.Analysis
import ShaderGraph.Build.Place
import ShaderGraph.Proofs.Evaluation
import ShaderGraph.Proofs.Typing

/-!
# Traces of errors

An error reports the nodes that it passed on its way out. `BuildError.Tracks` says that these are the
nodes of evaluation steps, the innermost first, where a node that repeats the last one is left out.

A step of a build that is taken at a situation fails without a place, or with a trace that ends at the
situation or at one that it is evaluated from (`Plan.Faults`); reporting the node of the situation
makes it a trace that ends there (`Faults.located`). `Build.Reports` says which errors a step ends in.
Steps that fill tables report errors without a place, whatever they are taken for.
-/

namespace ShaderGraph

/-! ### Repetitions left out -/

section Destutter

variable {α β : Type} [DecidableEq β]

theorem getLast?_destutter' (b : β) (l : List β) :
    (l.destutter' (· ≠ ·) b).getLast? = (b :: l).getLast? := by
  induction l generalizing b with
  | nil => rfl
  | cons c l ih =>
    rw [List.getLast?_cons_cons]
    by_cases h : b = c
    · subst h
      rw [List.destutter'_cons_neg _ (fun h => h rfl), ih]
    · rw [List.destutter'_cons_pos _ h, List.getLast?_cons, ih, List.getLast?_cons]
      rfl

theorem head?_destutter' (b : β) (l : List β) : (l.destutter' (· ≠ ·) b).head? = some b := by
  induction l generalizing b with
  | nil => rfl
  | cons c l ih =>
    by_cases h : b = c
    · subst h
      rw [List.destutter'_cons_neg _ (fun h => h rfl), ih]
    · rw [List.destutter'_cons_pos _ h]
      rfl

theorem destutter'_concat (b x : β) (l : List β) : (l ++ [x]).destutter' (· ≠ ·) b =
    if (b :: l).getLast? = some x then l.destutter' (· ≠ ·) b
    else l.destutter' (· ≠ ·) b ++ [x] := by
  induction l generalizing b with
  | nil =>
    by_cases h : b = x <;> simp [h]
  | cons c l ih =>
    rw [List.cons_append, List.getLast?_cons_cons]
    by_cases h : b = c
    · subst h
      rw [List.destutter'_cons_neg _ (fun h => h rfl), List.destutter'_cons_neg _ (fun h => h rfl), ih]
    · rw [List.destutter'_cons_pos _ h, List.destutter'_cons_pos _ h, ih]
      split <;> rfl

/-- A further entry is left out exactly if it repeats the last one. -/
theorem destutter_concat {l : List β} (hl : l ≠ []) (x : β) : (l ++ [x]).destutter (· ≠ ·) =
    if (l.destutter (· ≠ ·)).getLast? = some x then l.destutter (· ≠ ·)
    else l.destutter (· ≠ ·) ++ [x] := by
  obtain ⟨b, l, rfl⟩ := List.exists_cons_of_ne_nil hl
  rw [List.cons_append, List.destutter_cons', List.destutter_cons', getLast?_destutter',
    destutter'_concat]

/-- Neighbours among the images of a chain are images of neighbours in the chain. -/
theorem isChain_destutter_map {f : α → β} {S : α → α → Prop} {l : List α} (h : l.IsChain S) :
    ((l.map f).destutter (· ≠ ·)).IsChain fun x y => x ≠ y ∧
      ∃ a ∈ l, ∃ b ∈ l, S a b ∧ f a = x ∧ f b = y := by
  cases l with
  | nil => exact .nil
  | cons a l =>
    rw [List.map_cons, List.destutter_cons']
    induction l generalizing a with
    | nil => exact List.isChain_singleton _
    | cons b l ih =>
      have mono : ∀ x y, (x ≠ y ∧ ∃ c ∈ b :: l, ∃ d ∈ b :: l, S c d ∧ f c = x ∧ f d = y) →
          x ≠ y ∧ ∃ c ∈ a :: b :: l, ∃ d ∈ a :: b :: l, S c d ∧ f c = x ∧ f d = y :=
        fun x y ⟨ne, c, hc, d, hd, step⟩ => ⟨ne, c, .tail _ hc, d, .tail _ hd, step⟩
      have rest := (ih b (List.isChain_cons_cons.1 h).2).imp mono
      have step := (List.isChain_cons_cons.1 h).1
      rw [List.map_cons]
      by_cases same : f a = f b
      · rwa [List.destutter'_cons_neg _ (fun h => h same), same]
      · rw [List.destutter'_cons_pos _ same]
        refine List.isChain_cons.2 ⟨fun y hy => ?_, rest⟩
        rw [head?_destutter', Option.mem_some_iff] at hy
        subst hy
        exact ⟨same, a, .head _, b, .tail _ (.head _), step, rfl, rfl⟩

end Destutter

/-! ### Errors with places -/

namespace BuildError

variable {p : Plan} {e : BuildError} {path : List Situation} {σ τ : Situation}

/-- The places that an error reports are the nodes of a path of evaluation steps, the innermost
first. -/
structure Tracks (p : Plan) (e : BuildError) (path : List Situation) : Prop where
  steps : path.IsChain fun inner outer => p.Step outer inner
  node : e.node = e.trace.head?
  trace : e.trace = (path.map fun σ => p.location σ.node).destutter (· ≠ ·)

theorem trace_located (e : BuildError) (l : Location) (stage : Stage) :
    (e.located l stage).trace = if e.trace.getLast? = some l then e.trace else e.trace ++ [l] := rfl

/-- The first place is that of an error without one. -/
theorem tracks_first (c : Cause) (σ : Situation) (stage : Stage) :
    ((ofCause c).located (p.location σ.node) stage).Tracks p [σ] where
  steps := List.isChain_singleton _
  node := rfl
  trace := rfl

theorem node_located_of_head (h : e.node = e.trace.head?) (hne : e.trace ≠ []) (l : Location)
    (stage : Stage) : (e.located l stage).node = (e.located l stage).trace.head? := by
  obtain ⟨first, rest, ht⟩ := List.exists_cons_of_ne_nil hne
  have some : e.node = some first := by rw [h, ht]; rfl
  rw [node_located, trace_located, some, ht]
  split <;> rfl

theorem Tracks.getLast? (h : e.Tracks p (path ++ [τ])) :
    e.trace.getLast? = some (p.location τ.node) := by
  rw [h.trace, List.map_append, List.map_singleton]
  by_cases hne : (path.map fun σ => p.location σ.node) = []
  · rw [hne]
    rfl
  · rw [destutter_concat hne]
    split
    · next last => exact last
    · exact List.getLast?_concat

theorem Tracks.nonempty (h : e.Tracks p (path ++ [τ])) : e.trace ≠ [] := by
  intro hnil
  have last := h.getLast?
  rw [hnil] at last
  cases last

/-- The place that was reported last is not reported again. -/
theorem Tracks.again (h : e.Tracks p (path ++ [τ])) (stage : Stage) :
    (e.located (p.location τ.node) stage).Tracks p (path ++ [τ]) where
  steps := h.steps
  node := node_located_of_head h.node h.nonempty _ _
  trace := by rw [trace_located, if_pos h.getLast?, h.trace]

/-- A step further out. -/
theorem Tracks.out (h : e.Tracks p (path ++ [τ])) (hs : p.Step σ τ) (stage : Stage) :
    (e.located (p.location σ.node) stage).Tracks p (path ++ [τ] ++ [σ]) where
  steps := by
    refine List.isChain_append.2 ⟨h.steps, List.isChain_singleton _, fun x hx y hy => ?_⟩
    rw [List.getLast?_concat, Option.mem_some_iff] at hx
    rw [List.head?_cons, Option.mem_some_iff] at hy
    subst hx hy
    exact hs
  node := node_located_of_head h.node h.nonempty _ _
  trace := by
    have nonempty : ((path ++ [τ]).map fun σ => p.location σ.node) ≠ [] := by simp
    have further : ((path ++ [τ] ++ [σ]).map fun σ => p.location σ.node) =
        ((path ++ [τ]).map fun σ => p.location σ.node) ++ [p.location σ.node] := List.map_append
    rw [trace_located, h.trace, further, destutter_concat nonempty]

end BuildError

namespace Plan

variable {p : Plan} {e : BuildError} {σ τ : Situation} {around : List NodeId} {c m : NodeId}

/-- The trace of an error ends at a situation. -/
def FailsAt (p : Plan) (σ : Situation) (e : BuildError) : Prop := ∃ path, e.Tracks p (path ++ [σ])

/-- An error of a step at a situation: it has no place yet, or its trace ends at the situation or at
one that this is evaluated from. -/
def Faults (p : Plan) (σ : Situation) (e : BuildError) : Prop :=
  (∃ c, e = .ofCause c) ∨ p.FailsAt σ e ∨ ∃ τ, p.Step σ τ ∧ p.FailsAt τ e

/-- An error of a step for a node that is referred to. -/
def FaultsBelow (p : Plan) (around : List NodeId) (c : NodeId) (e : BuildError) : Prop :=
  (∃ c, e = .ofCause c) ∨ ∃ m, p.resolve c = .ok m ∧ p.FailsAt ⟨m, around⟩ e

/-- With the place of the step reported, the trace ends there. -/
theorem Faults.located (h : p.Faults σ e) (stage : Stage) :
    p.FailsAt σ (e.located (p.location σ.node) stage) := by
  rcases h with ⟨c, rfl⟩ | ⟨path, h⟩ | ⟨τ, step, path, h⟩
  · exact ⟨[], BuildError.tracks_first c σ stage⟩
  · exact ⟨path, h.again stage⟩
  · exact ⟨path ++ [τ], h.out step stage⟩

/-- What is reported for a node below is reported for the situation. -/
theorem FaultsBelow.faults (h : p.FaultsBelow around c e)
    (hs : ∀ m, p.resolve c = .ok m → p.Step σ ⟨m, around⟩) : p.Faults σ e := by
  rcases h with bare | ⟨m, hm, h⟩
  · exact .inl bare
  · exact .inr (.inr ⟨_, hs m hm, h⟩)

/-- What is reported for the node of the situation itself is reported for the situation. -/
theorem FaultsBelow.own (h : p.FaultsBelow σ.around σ.node e)
    (hs : p.resolve σ.node = .ok σ.node) : p.Faults σ e := by
  rcases h with bare | ⟨m, hm, h⟩
  · exact .inl bare
  · cases hs.symm.trans hm
    exact .inr (.inl h)

end Plan

/-! ### What steps report -/

namespace Build

variable {α β : Type} {E E' : BuildError → Prop} {env : Env}

/-- A failure with one of some errors, or the end of a recursion that goes too deep. -/
def Refusals (E : BuildError → Prop) : Failure → Prop
  | .refused e => E e
  | .exhausted => True

/-- The step ends in no other errors, where the varyings are those of the plan; then they still
are. -/
def Reports (E : BuildError → Prop) (env : Env) (step : Build α) : Prop :=
  ∀ s, VaryingsFrom env.plan s.varyings →
    Meets step env s (Refusals E) fun _ s' => VaryingsFrom env.plan s'.varyings

/-- Errors without a place are allowed. -/
def Unplaced (E : BuildError → Prop) : Prop := ∀ c, E (.ofCause c)

theorem unplaced_faults (p : Plan) (σ : Situation) : Unplaced (p.Faults σ) := fun c => .inl ⟨c, rfl⟩

theorem unplaced_faultsBelow (p : Plan) (around : List NodeId) (c : NodeId) :
    Unplaced (p.FaultsBelow around c) := fun cause => .inl ⟨cause, rfl⟩

namespace Reports

variable {step : Build α} {next : α → Build β}

theorem mono (h : Reports E env step) (he : ∀ e, E e → E' e) : Reports E' env step := by
  refine fun s hv => (h s hv).mono (fun f hf => ?_) fun _ _ => id
  cases f with
  | refused e => exact he e hf
  | exhausted => trivial

theorem pure (a : α) : Reports E env (pure a) := fun _ h => h

theorem exhaust : Reports E env (exhaust : Build α) := fun _ _ => trivial

theorem fail (hE : Unplaced E) (c : Cause) : Reports E env (fail c : Build α) := fun _ _ => hE c

theorem bind (h : Reports E env step) (hn : ∀ a, Reports E env (next a)) :
    Reports E env (step >>= next) := by
  intro s hv
  rw [meets_bind]
  exact (h s hv).imp fun a s' hv' => hn a s' hv'

theorem map (f : α → β) (h : Reports E env step) : Reports E env (f <$> step) := by
  intro s hv
  rw [meets_map]
  exact h s hv

theorem discard (h : Reports E env step) : Reports E env (discard step) := .map _ h

theorem ite {c : Prop} [Decidable c] {a b : Build α} (ha : c → Reports E env a)
    (hb : ¬c → Reports E env b) : Reports E env (if c then a else b) := by
  split
  · next h => exact ha h
  · next h => exact hb h

/-- A step that is taken under a condition only, and what follows in any case. -/
theorem when {c : Prop} [Decidable c] {step : Build Unit} {next : Unit → Build α}
    (h : Reports E env step) (hn : ∀ u, Reports E env (next u)) :
    Reports E env (if c then step >>= next else next ()) :=
  .ite (fun _ => .bind h hn) fun _ => hn ()

theorem forM {f : α → Build PUnit} {xs : List α} (h : ∀ x ∈ xs, Reports E env (f x)) :
    Reports E env (xs.forM f) := by
  induction xs with
  | nil => exact .pure _
  | cons x rest ih => exact .bind (h x (.head _)) fun _ => ih fun x hx => h x (.tail _ hx)

theorem mapM {f : α → Build β} {xs : List α} (h : ∀ x ∈ xs, Reports E env (f x)) :
    Reports E env (xs.mapM f) := by
  induction xs with
  | nil => exact .pure _
  | cons x rest ih =>
    rw [List.mapM_cons]
    exact .bind (h x (.head _)) fun y => .bind (ih fun x hx => h x (.tail _ hx)) fun ys => .pure _

/-! ### Surroundings and state -/

theorem read {next : Env → Build β} (h : Reports E env (next env)) :
    Reports E env (MonadReader.read >>= next) := h

theorem get {next : BuildState → Build β} (h : ∀ s, Reports E env (next s)) :
    Reports E env (MonadState.get >>= next) := fun s hv => h s s hv

theorem modify {f : BuildState → BuildState} (hf : ∀ s, (f s).varyings = s.varyings) :
    Reports E env (modify f) := fun s hv => (congrArg (VaryingsFrom env.plan) (hf s)).mpr hv

theorem modifyGet {f : BuildState → α × BuildState} (hf : ∀ s, (f s).2.varyings = s.varyings) :
    Reports E env (MonadStateOf.modifyGet f) :=
  fun s hv => (congrArg (VaryingsFrom env.plan) (hf s)).mpr hv

theorem modifyHere (f : StageBuild → StageBuild) : Reports E env (modifyHere f) := fun _ h => h

theorem here {next : StageBuild → Build β} (h : ∀ b, Reports E env (next b)) :
    Reports E env (Build.here >>= next) := fun s hv => h _ s hv

theorem stage {next : Stage → Build β} (h : Reports E env (next env.stage)) :
    Reports E env (Build.stage >>= next) := h

theorem dialect {next : Dialect → Build β} (h : Reports E env (next env.plan.options.dialect)) :
    Reports E env (Build.dialect >>= next) := h

theorem withReader {f : Env → Env} (h : Reports E (f env) step) (hf : (f env).plan = env.plan) :
    Reports E env (withReader f step) := by
  intro s hv
  rw [meets_withReader]
  exact hf ▸ h s (hf.symm ▸ hv)

theorem inScope {scope : ScopeId} (h : Reports E { env with scope := scope } step) :
    Reports E env (inScope scope step) := h

theorem inStage {e' : Stage} (h : Reports E (within env e') step) :
    Reports E env (inStage e' step) := by
  have within_plan : (within env e').plan = env.plan := by
    unfold within
    split <;> rfl
  intro s hv
  rw [meets_inStage]
  exact within_plan ▸ h s (within_plan.symm ▸ hv)

/-! ### Rules -/

theorem ofExcept {ε : Type} [Coe ε Cause] (hE : Unplaced E) (r : Except ε α) :
    Reports E env (ofExcept r) := by
  intro s hv
  rw [meets_ofExcept]
  cases r with
  | ok a => exact hv
  | error c => exact hE _

/-- A step for the node that is built in the place of another. -/
theorem resolve {id : NodeId} {next : NodeId → Build β} (hE : Unplaced E)
    (h : ∀ m, env.plan.resolve id = .ok m → Reports E env (next m)) :
    Reports E env (resolve id >>= next) := by
  intro s hv
  rw [meets_bind, meets_resolve]
  cases hm : env.plan.resolve id with
  | ok m => exact h m hm s hv
  | error c => exact hE _

/-- A step for a node that is looked up. -/
theorem node {id : NodeId} {next : Node → Build β} (hE : Unplaced E)
    (h : ∀ n, env.plan.node id = .ok n → Reports E env (next n)) :
    Reports E env (node id >>= next) := by
  intro s hv
  rw [meets_bind, meets_node]
  cases hn : env.plan.node id with
  | ok n => exact h n hn s hv
  | error c => exact hE _

theorem structMembers (hE : Unplaced E) (name : String) :
    Reports E env (structMembers name) := by
  intro s hv
  rw [meets_structMembers]
  cases env.plan.structs.get? name with
  | some members => exact hv
  | none => exact hE _

/-- A step whose errors report a place. -/
theorem located {id : NodeId} (h : Reports E env step)
    (he : ∀ e, E e → E' (e.located (env.plan.location id) env.stage)) :
    Reports E' env (located id step) := by
  intro s hv
  rw [meets_located]
  refine (h s hv).mono (fun f hf => ?_) fun _ _ h => h
  cases f with
  | refused e => exact he e hf
  | exhausted => trivial

end Reports

/-! ### Structs and functions -/

section Tables

variable (hE : Unplaced E)
include hE

theorem markTypeIn_reports (fuel : Nat) (t : ValueType) : Reports E env (markTypeIn fuel t) := by
  induction fuel generalizing t with
  | zero => exact .exhaust
  | succ fuel ih =>
    cases t with
    | struct name =>
      refine .here fun b => .ite (fun _ => .pure _) fun _ => ?_
      refine .bind (.structMembers hE name) fun members => ?_
      rw [forIn_eq_forM]
      exact .bind (.forM fun m _ => ih m.type) fun _ => .modifyHere _
    | array element _ => exact ih element
    | _ => exact .pure _

theorem markType_reports (t : ValueType) : Reports E env (markType t) :=
  .read (markTypeIn_reports hE _ t)

theorem useType_reports (t : ValueType) : Reports E env (useType t) := by
  refine .bind (markType_reports hE t) fun _ => .dialect ?_
  split
  · exact .fail hE _
  · exact .pure _

theorem emitFunction_reports (native : NativeFunction) (f : Native.Declaration) (claimed : String)
    (includes : List String) : Reports E env (emitFunction native f claimed includes) := by
  refine .dialect (.ite (fun _ => .pure _) fun _ => .ite (fun _ => ?_) fun _ => .fail hE _)
  refine .read (.bind (.ofExcept hE _) fun emitted => ?_)
  exact .when (.modify fun _ => rfl) fun _ => .pure _

theorem functionEntry_reports (native : NativeFunction) (f : Native.Declaration)
    (includes : List String) : Reports E env (functionEntry native f includes) :=
  .bind (.modifyGet fun _ => rfl) fun _ => .bind (emitFunction_reports hE _ _ _ _) fun _ => .pure _

theorem registerFunctionIn_reports (fuel : Nat) (path : List FunctionId) (id : FunctionId) :
    Reports E env (registerFunctionIn fuel path id) := by
  induction fuel generalizing path id with
  | zero => exact .exhaust
  | succ fuel ih =>
    refine .get fun s => ?_
    split
    · exact .pure _
    · refine .when (.fail hE _) fun _ => .read ?_
      split
      · exact .fail hE _
      · next native _ =>
        refine .bind (.mapM fun i _ => ih _ i) fun included => .bind (.ofExcept hE _) fun f => ?_
        refine .bind (functionEntry_reports hE native f _) fun entry => ?_
        exact .bind (.modify fun _ => rfl) fun _ => .pure _

theorem registerFunction_reports (id : FunctionId) : Reports E env (registerFunction id) :=
  .read (registerFunctionIn_reports hE _ [] id)

theorem useFunctionIn_reports (fuel : Nat) (id : FunctionId) :
    Reports E env (useFunctionIn fuel id) := by
  induction fuel generalizing id with
  | zero => exact .exhaust
  | succ fuel ih =>
    refine .bind (registerFunction_reports hE id) fun entry => .here fun b => ?_
    refine .ite (fun _ => .pure _) fun _ => ?_
    rw [forIn_eq_forM, forIn_eq_forM]
    refine .bind (.forM fun i _ => ih i) fun _ => ?_
    refine .bind (.forM fun p _ => markType_reports hE _) fun _ => ?_
    exact .bind (markType_reports hE _) fun _ => .modifyHere _

theorem useFunction_reports (id : FunctionId) : Reports E env (useFunction id) :=
  .read (useFunctionIn_reports hE _ id)

/-! ### Inputs -/

omit hE in
theorem groupEntry_reports (group : String) : Reports E env (groupEntry group) := by
  refine .get fun s => ?_
  split
  · exact .pure _
  · refine .bind (.modifyGet fun _ => rfl) fun block => .bind (.modifyGet fun _ => rfl) fun inst => ?_
    exact .bind (.modify fun _ => rfl) fun _ => .pure _

theorem uniformEntry_reports (key : UniformKey) (type : ValueType) (update : Cadence)
    (value : List Float32) (id : NodeId) :
    Reports E env (uniformEntry key type update value id) := by
  refine .get fun s => ?_
  split
  · exact .when (.fail hE _) fun _ => .pure _
  · refine .bind (groupEntry_reports key.group) fun g => .bind (.modifyGet fun _ => rfl) fun member => ?_
    exact .bind (.modify fun _ => rfl) fun _ => .bind (.modify fun _ => rfl) fun _ => .pure _

theorem scheduleUniform_reports (key : UniformKey) (update : Cadence) (id : NodeId) :
    Reports E env (scheduleUniform key update id) := by
  refine .ite (fun _ => .pure _) fun _ => .bind (groupEntry_reports key.group) fun g => ?_
  have record : Reports E env (do
      let uid := (← read).plan.graph.uid
      modify fun s => { s with updates := s.updates.put id ⟨uid, id, key.name, update⟩ }) := by
    exact .read (.modify fun _ => rfl)
  split
  · exact .when (.fail hE _) fun _ => record
  · exact .bind (.modify fun _ => rfl) fun _ => record

theorem registerUniform_reports (id : NodeId) (name : String) (type : ValueType)
    (group : Option String) (update : Cadence) (value : List Float32) :
    Reports E env (registerUniform id name type group update value) := by
  unfold registerUniform
  refine .when (.fail hE _) fun _ => ?_
  refine .bind (uniformEntry_reports hE _ type update value id) fun u => ?_
  exact .bind (scheduleUniform_reports hE _ update id) fun _ => .pure _

omit hE in
theorem useUniform_reports (group : String) (u : UniformEntry) :
    Reports E env (useUniform group u) := by
  refine .bind (groupEntry_reports group) fun g => ?_
  have declare : Reports E env (do
      modifyHere fun b => { b with groups := appendNew b.groups group }
      return Expr.reference (.uniform g.inst u.member)) := .bind (.modifyHere _) fun _ => .pure _
  refine .ite (fun _ => ?_) fun _ => declare
  exact .bind (.modifyGet fun _ => rfl) fun _ => .bind (.modify fun _ => rfl) fun _ => declare

omit hE in
theorem registerTexture_reports (name : String) : Reports E env (registerTexture name) := by
  refine .get fun s => ?_
  split
  · exact .pure _
  · refine .bind (.modifyGet fun _ => rfl) fun _ => .bind (.modifyGet fun _ => rfl) fun _ => ?_
    exact .bind (.modify fun _ => rfl) fun _ => .pure _

omit hE in
theorem useTexture_reports (name : String) : Reports E env (useTexture name) := by
  refine .bind (registerTexture_reports name) fun t => ?_
  have declare : Reports E env (do
      modifyHere fun b => { b with textures := appendNew b.textures name }
      return t) := .bind (.modifyHere _) fun _ => .pure _
  refine .ite (fun _ => ?_) fun _ => declare
  exact .bind (.modifyGet fun _ => rfl) fun _ => .bind (.modify fun _ => rfl) fun _ => declare

theorem registerStorage_reports (name : String) (element : ValueType) (count : Option UInt32)
    (access : Access) : Reports E env (registerStorage name element count access) := by
  refine .get fun s => ?_
  split
  · exact .when (.fail hE _) fun _ => .bind (.modify fun _ => rfl) fun _ => .pure _
  · refine .when (.fail hE _) fun _ => .bind (.modifyGet fun _ => rfl) fun _ =>
      .bind (.modifyGet fun _ => rfl) fun _ => ?_
    exact .bind (.modify fun _ => rfl) fun _ => .pure _

theorem useStorage_reports (name : String) (b : StorageEntry) :
    Reports E env (useStorage name b) := by
  have declare : Reports E env (do
      markType b.element
      modifyHere fun h => { h with storage := appendNew h.storage name }
      return Expr.reference (.storage b.name)) :=
    .bind (markType_reports hE _) fun _ => .bind (.modifyHere _) fun _ => .pure _
  refine .ite (fun _ => ?_) fun _ => declare
  exact .bind (.modifyGet fun _ => rfl) fun _ => .bind (.modify fun _ => rfl) fun _ => declare

theorem attributeType_reports (name : String) (explicit : Option ValueType) :
    Reports E env (attributeType name explicit) := by
  refine .read ?_
  split
  · exact .pure _
  · exact .fail hE _

theorem registerAttribute_reports (name : String) (explicit : Option ValueType) :
    Reports E env (registerAttribute name explicit) := by
  refine .bind (attributeType_reports hE _ _) fun type => .when (.fail hE _) fun _ => .get fun s => ?_
  split
  · exact .when (.fail hE _) fun _ => .pure _
  · exact .bind (.modifyGet fun _ => rfl) fun _ => .bind (.modify fun _ => rfl) fun _ => .pure _

theorem useAttribute_reports (name : String) (explicit : Option ValueType) :
    Reports E env (useAttribute name explicit) := by
  refine .bind (registerAttribute_reports hE _ _) fun a => .when (.modify fun _ => rfl) fun _ => ?_
  exact .bind (.modifyHere _) fun _ => .pure _

theorem useBuiltin_reports (b : Builtin) : Reports E env (useBuiltin b) :=
  .stage (.when (.fail hE _) fun _ => .bind (.modifyHere _) fun _ => .pure _)

end Tables

/-! ### Locals -/

theorem claimLocal_reports (name : String) : Reports E env (claimLocal name) := by
  exact .read (.modifyGet fun _ => rfl)

theorem claimTemp_reports : Reports E env claimTemp := by
  exact .read (.modifyGet fun _ => rfl)

theorem boundName?_reports (id : NodeId) : Reports E env (boundName? id) := by
  unfold boundName?
  refine .read (.get fun s => ?_)
  split
  · exact .bind (fun _ h => h) fun _ => .pure _
  · exact .pure _

theorem bindName_reports (id : NodeId) (name : String) (frame : Option FrameId) :
    Reports E env (bindName id name frame) := fun _ h => h

theorem bindValue_reports (id : NodeId) (name : String) : Reports E env (bindValue id name) :=
  fun _ h => h

theorem usage_reports (id : NodeId) : Reports E env (usage id) := fun _ h => h

theorem declareTemp_reports (hE : Unplaced E) (type : ValueType) (init : Option Expr)
    (m : Mutability) : Reports E env (declareTemp type init m) :=
  .bind (useType_reports hE type) fun _ => .bind claimTemp_reports fun _ =>
    .bind (.modifyHere _) fun _ => .pure _

theorem inBlock_reports {step : Build Unit} (h : Reports E env step) :
    Reports E env (inBlock step) :=
  .bind (.modifyHere _) fun _ => .bind h fun _ => .here fun _ => .bind (.modifyHere _) fun _ => .pure _

end Build

/-! ### Surroundings of situations -/

/-- What a step sees are the contexts of some nodes of a plan. -/
structure Env.Around (p : Plan) (env : Env) (around : List NodeId) : Prop where
  plan : env.plan = p
  frames : List.Forall₂ (fun f n => f.values = p.lent n) env.frames around

namespace Env.Around

open Build

variable {p : Plan} {env : Env} {around : List NodeId}

theorem root (p : Plan) (active : List Stage) (stage : Stage) : (Env.root p active stage).Around p [] :=
  ⟨rfl, .nil⟩

theorem inside (h : env.Around p around) {id inner : NodeId} {values : List (String × NodeId)}
    (hn : p.node id = .ok (.context inner values)) (frame : FrameId) :
    (Build.inside env frame values).Around p (id :: around) :=
  ⟨h.plan, .cons (Plan.lent_of_node hn).symm h.frames⟩

theorem within (h : env.Around p around) (stage : Stage) : (Build.within env stage).Around p around := by
  unfold Build.within
  split
  · exact h
  · exact ⟨h.plan, h.frames⟩

end Env.Around

/-- A value is found in the frames exactly when it is found among the nodes that lend it. -/
theorem lookup?_of_lent {p : Plan} {fs : List Frame} {around : List NodeId}
    (h : List.Forall₂ (fun f n => f.values = p.lent n) fs around) (key : String) :
    (Frame.lookup? key fs = none ∧ p.lookup? key around = none) ∨
      ∃ value outer outer', Frame.lookup? key fs = some (value, outer) ∧
        p.lookup? key around = some (value, outer') ∧
        List.Forall₂ (fun f n => f.values = p.lent n) outer outer' := by
  induction h with
  | nil => exact .inl ⟨rfl, rfl⟩
  | @cons f n fs ns hv rest ih =>
    rw [Frame.lookup?, Plan.lookup?, hv]
    cases (p.lent n).reverse.lookup key with
    | some value => exact .inr ⟨value, fs, ns, rfl, rfl, rest⟩
    | none => exact ih

namespace Build

variable {α : Type} {p : Plan} {env : Env} {σ : Situation} {n : Node}

/-- A step for each node reports what was met below it, whatever contexts are around. -/
def Descends (p : Plan) (step : NodeId → Build α) : Prop :=
  ∀ env around c, env.Around p around → Reports (p.FaultsBelow around c) env (step c)

/-- A step for a node that most nodes refer to. -/
theorem Descends.child {step : NodeId → Build α} (h : Descends p step) (hn : p.node σ.node = .ok n)
    (hl : n.isLexical = false) (env : Env) (he : env.Around p σ.around) {c : NodeId}
    (hc : c ∈ n.children) : Reports (p.Faults σ) env (step c) :=
  (h env σ.around c he).mono fun _ below => below.faults fun _ hm => .child hn hl hc hm

/-- The step inside a context node. -/
theorem Descends.inContext {step : NodeId → Build α} (h : Descends p step) {inner : NodeId}
    {values : List (String × NodeId)} (hn : p.node σ.node = .ok (.context inner values))
    (he : env.Around p σ.around) :
    Reports (p.Faults σ) env (inContext σ.node values (step inner)) := by
  intro s hv
  rw [meets_inContext]
  refine Reports.mono (h _ (σ.node :: σ.around) inner (he.inside hn _)) (fun e below => ?_) _ hv
  exact below.faults fun _ hm => .inside hn hm

/-- The step at the value of a key. -/
theorem Descends.withContextValue {step : NodeId → Build α} (h : Descends p step) {key : String}
    {fallback : Option NodeId} (hn : p.node σ.node = .ok (.contextValue key fallback))
    (he : env.Around p σ.around) :
    Reports (p.Faults σ) env (withContextValue key fallback step) := by
  intro s hv
  rw [meets_withContextValue]
  rcases lookup?_of_lent he.frames key with ⟨hf, hp⟩ | ⟨value, outer, outer', hf, hp, lent⟩
  · rw [hf]
    cases fallback with
    | some c =>
      refine Reports.mono (h env σ.around c he) (fun e below => ?_) s hv
      exact below.faults fun _ hm => .fallback hn hp hm
    | none => exact unplaced_faults p σ _
  · rw [hf]
    refine Reports.mono (h { env with frames := outer } outer' value ⟨he.plan, lent⟩)
      (fun e below => ?_) s hv
    exact below.faults fun _ hm => .lent hn hp hm

/-- The report of the node of a situation. -/
theorem Reports.reporting {step : Build α} {around : List NodeId} {c m : NodeId} (hp : env.plan = p)
    (hm : p.resolve c = .ok m) (h : Reports (p.Faults ⟨m, around⟩) env step) :
    Reports (p.FaultsBelow around c) env (Build.located m step) :=
  h.located fun _ faults => .inr ⟨m, hm, hp ▸ faults.located _⟩

/-! ### Types -/

theorem counterType_reports {E : BuildError → Prop} (hE : Unplaced E) (loop : NodeId) (param : Nat) :
    Reports E env (counterType loop param) := by
  refine .resolve hE fun m _ => .node hE fun n _ => ?_
  split
  · split
    · exact .pure _
    · exact .fail hE _
  · exact .fail hE _

theorem structType_reports {E : BuildError → Prop} (hE : Unplaced E) (layout : NodeId) :
    Reports E env (structType layout) := by
  refine .resolve hE fun m _ => .node hE fun n _ => ?_
  split
  · exact .pure _
  · exact .fail hE _

theorem memberType_reports {E : BuildError → Prop} (hE : Unplaced E) (base : ValueType)
    (name : String) : Reports E env (memberType base name) := by
  unfold memberType
  split
  · refine .bind (.structMembers hE _) fun members => ?_
    split
    · exact .pure _
    · exact .fail hE _
  · exact .fail hE _

theorem elementType_reports {E : BuildError → Prop} (hE : Unplaced E) (base index : ValueType) :
    Reports E env (elementType base index) := by
  unfold elementType
  refine .when (.fail hE _) fun _ => ?_
  split
  · exact .pure _
  · exact .fail hE _

/-- The type of a node that neither lends values nor stands for one. -/
theorem typeOfNode_reports {E : BuildError → Prop} (hE : Unplaced E)
    {typeOf : NodeId → Build ValueType} (hs : ∀ c ∈ n.children, Reports E env (typeOf c))
    (hl : n.isLexical = false) (id : NodeId) : Reports E env (typeOfNode typeOf id n) := by
  cases n with
  | const | array => exact .ofExcept hE _
  | meshAttribute => exact attributeType_reports hE _ _
  | varying source | cache source => exact hs _ (.head _)
  | var value => exact .bind (hs _ (.head _)) fun t => .when (.fail hE _) fun _ => .pure _
  | operator op left right =>
    exact .bind (hs _ (.head _)) fun l => .bind (hs _ (.tail _ (.head _))) fun r => .ofExcept hE _
  | unary op operand => exact .bind (hs _ (.head _)) fun _ => .ofExcept hE _
  | split source components => exact .bind (hs _ (.head _)) fun _ => .ofExcept hE _
  | math method args => exact .bind (.mapM hs) fun _ => .ofExcept hE _
  | join parts explicit => exact .bind (.mapM hs) fun _ => .ofExcept hE _
  | conditional condition thenNode elseNode =>
    refine .bind (hs _ (.head _)) fun c => .when (.fail hE _) fun _ => ?_
    split
    · exact .pure _
    · refine .bind (hs _ (.tail _ (.head _))) fun t => ?_
      refine .bind (hs _ (.tail _ (.tail _ (.head _)))) fun e => ?_
      exact .when (.fail hE _) fun _ => .pure _
  | loopIndex loop param => exact counterType_reports hE loop param
  | stack nodes output =>
    cases output with
    | some output => exact hs output (List.mem_append_right _ (.head _))
    | none => exact .pure _
  | struct layout values => exact structType_reports hE layout
  | member base name => exact .bind (hs _ (.head _)) fun _ => memberType_reports hE _ _
  | index base i =>
    exact .bind (hs _ (.head _)) fun b => .bind (hs _ (.tail _ (.head _))) fun t =>
      elementType_reports hE b t
  | context | contextValue => cases hl
  | call f args => exact .bind (registerFunction_reports hE f) fun _ => .pure _
  | remap | custom => exact .fail hE _
  | _ => exact .pure _

/-- Finding the type of a node reports what was met below it. -/
theorem typeOfIn_descends (p : Plan) (fuel : Nat) : Descends p (typeOfIn fuel) := by
  induction fuel with
  | zero => exact fun env around c _ => .exhaust
  | succ fuel ih =>
    intro env around c he
    have hE := unplaced_faultsBelow p around c
    refine .resolve hE fun m hm => .read (.get fun s => ?_)
    rw [he.plan] at hm
    split
    · exact .pure _
    · refine .bind (.read (.when (.fail hE _) fun _ => .withReader ?_ rfl)) fun t =>
        .bind (.modify fun _ => rfl) fun _ => .pure _
      have he' : Env.Around p { env with typing := (m, Frame.current env.frames) :: env.typing } around :=
        ⟨he.plan, he.frames⟩
      refine .reporting he.plan hm (.node (unplaced_faults p _) fun n hn => ?_)
      rw [show Env.plan _ = p from he.plan] at hn
      cases hl : n.isLexical with
      | false =>
        refine typeOfNode_reports (unplaced_faults p _) (fun c hc => ?_) hl m
        exact ih.child (σ := ⟨m, around⟩) hn hl _ he' hc
      | true =>
        cases n with
        | context inner values => exact ih.inContext (σ := ⟨m, around⟩) hn he'
        | contextValue key fallback => exact ih.withContextValue (σ := ⟨m, around⟩) hn he'
        | _ => cases hl

theorem typeOf_descends (p : Plan) : Descends p typeOf :=
  fun env around c he => .read (.read (typeOfIn_descends p _ env around c he))

/-! ### Analysis -/

section Varyings

variable {E : BuildError → Prop} {source : NodeId} {name : Option String}
  {interpolation : Interpolation} {sampling : Option Sampling}

theorem enterVarying_reports (hE : Unplaced E) (ht : Reports E env (typeOf source)) {id : NodeId}
    (hn : env.plan.node id = .ok (.varying source name interpolation sampling)) :
    Reports E env (enterVarying id source name interpolation sampling) := by
  refine .stage (.when (.fail hE _) fun _ => .read (.when (.fail hE _) fun _ => ?_))
  refine .bind ht fun type => .when (.fail hE _) fun _ => .bind ?_ fun emitted => ?_
  · cases name <;> exact .modifyGet fun _ => rfl
  · exact .bind (fun s hv => hv.put hn) fun _ => .pure _

theorem registerVarying_reports (hE : Unplaced E) (ht : Reports E env (typeOf source)) {id : NodeId}
    (hn : env.plan.node id = .ok (.varying source name interpolation sampling)) :
    Reports E env (registerVarying id source name interpolation sampling) := by
  refine .get fun s => ?_
  split
  · exact .pure _
  · exact enterVarying_reports hE ht hn

end Varyings

/-- Analysis of a node reports what was met below it. -/
theorem analyzeNode_reports {analyze : NodeId → Build Unit} (hs : Descends p analyze)
    (he : env.Around p σ.around) (hn : p.node σ.node = .ok n) :
    Reports (p.Faults σ) env (analyzeNode analyze σ.node n) := by
  have hE := unplaced_faults p σ
  have child := hs.child hn
  cases n with
  | cache inner shares =>
    have entered : Reports (p.Faults σ) env (cacheScope σ.node shares) := .read (.modifyGet fun _ => rfl)
    refine .bind entered fun scope => .inScope ?_
    exact child rfl { env with scope := scope } ⟨he.plan, he.frames⟩ (.head _)
  | context inner values => exact hs.inContext hn he
  | contextValue key fallback => exact hs.withContextValue hn he
  | varying source name interpolation sampling =>
    have type := (typeOf_descends p).child hn rfl env he (.head _)
    refine .bind (.discard (registerVarying_reports hE type (he.plan ▸ hn))) fun _ => ?_
    exact .inStage (child rfl _ (he.within _) (.head _))
  | uniform name type group update value =>
    exact .discard (registerUniform_reports hE _ _ _ _ _ _)
  | meshAttribute name type => exact .discard (registerAttribute_reports hE _ _)
  | storageBuffer name element count access =>
    exact .discard (registerStorage_reports hE _ _ _ _)
  | texture name uv level =>
    exact .bind (.discard (registerTexture_reports _)) fun _ => .forM fun c hc =>
      child rfl env he hc
  | call f args =>
    exact .bind (.discard (registerFunction_reports hE _)) fun _ => .forM fun c hc =>
      child rfl env he hc
  | _ => exact .forM fun c hc => child rfl env he hc

theorem analyzeIn_descends (p : Plan) (fuel : Nat) : Descends p (analyzeIn fuel) := by
  induction fuel with
  | zero => exact fun env around c _ => .exhaust
  | succ fuel ih =>
    intro env around c he
    have hE := unplaced_faultsBelow p around c
    refine .resolve hE fun m hm => .read ?_
    rw [he.plan] at hm
    have walk : Reports (p.FaultsBelow around c) env (do
        if (← countReference m) = 1 then
          below m do analyzeNode (analyzeIn fuel) m (← Build.node m)) := by
      refine .bind (.read (.modifyGet fun _ => rfl)) fun count => .ite (fun _ => ?_) fun _ => .pure _
      refine .withReader (.reporting he.plan hm (.node (unplaced_faults p _) fun n hn => ?_)) rfl
      rw [show Env.plan _ = p from he.plan] at hn
      exact analyzeNode_reports (σ := ⟨m, around⟩) ih ⟨he.plan, he.frames⟩ hn
    exact .when (.reporting he.plan hm (.fail (unplaced_faults p _) _)) fun _ => walk

theorem analyze_descends (p : Plan) : Descends p analyze :=
  fun env around c he => .read (analyzeIn_descends p _ env around c he)

end Build

end ShaderGraph
