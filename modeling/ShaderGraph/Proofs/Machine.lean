import ShaderGraph.Proofs.Collected
import ShaderGraph.Proofs.Typing

/-!
# Machines

The steps of a build see what is around a node and never change it, and a build that fails leaves no
state. A machine keeps what is around a node in registers, and it has a state after a failure as
well. Its steps write the registers on the way down and have to put them back on the way up, however
the way ends; a block that they open they have to close.

`Realizes m step` says that a machine does with `m` what a build does with `step`, and that the
registers and the blocks are afterwards what they were. There is one rule for each way to compose
steps.
-/

namespace ShaderGraph

open Build

/-- A build with registers. -/
structure Machine where
  /-- The stage, the cache scope, the contexts and the loops around the current node, the nodes that
  are being analysed and those whose type is being found. -/
  env : Env
  /-- The functions that are being read. -/
  registering : List FunctionId
  state : BuildState

namespace Machine

variable {α β : Type}

/-- A step of a machine. -/
def Step (α : Type) : Type := Machine → Except Failure α × Machine

instance : Monad Step where
  pure a := fun x => (.ok a, x)
  bind step next := fun x =>
    match step x with
    | (.ok a, y) => next a y
    | (.error f, y) => (.error f, y)

/-- A step that does not write registers. If it fails the state is that of before. -/
def plain (step : Build α) : Step α := fun x =>
  match step x.env x.state with
  | .ok (a, s) => (.ok a, { x with state := s })
  | .error f => (.error f, x)

instance : MonadLift Build Step := ⟨plain⟩

/-- The machine with other registers. -/
def seeing (f : Env → Env) (x : Machine) : Machine := { x with env := f x.env }

/-- The machine with a change of what was collected for its stage. -/
def changeHere (f : StageBuild → StageBuild) (x : Machine) : Machine :=
  { x with state := { x.state with stages := x.state.stages.modify x.env.stage f } }

/-- A step between a change of the machine and another change, which is made even if the step fails.
That one may look at the machine from before. -/
def between (enter : Machine → Machine) (step : Step α) (leave : Machine → Machine → Machine) :
    Step α := fun x =>
  let (r, y) := step (enter x)
  (r, leave x y)

/-! ### Scopes -/

/-- A step at a node; errors report the node. -/
def located (id : NodeId) (step : Step α) : Step α := fun x =>
  match step x with
  | (.ok a, y) => (.ok a, y)
  | (.error f, y) => (.error (locate y.env id f), y)

/-- A step inside a cache scope: the scope is replaced and put back. -/
def inScope (scope : ScopeId) (step : Step α) : Step α :=
  between (seeing fun env => { env with scope := scope }) step fun x =>
    seeing fun env => { env with scope := x.env.scope }

/-- A step with one more context around: the context is pushed and popped. -/
def inFrame (frame : Frame) (step : Step α) : Step α :=
  between (seeing fun env => { env with frames := frame :: env.frames }) step fun _ =>
    seeing fun env => { env with frames := env.frames.tail }

/-- A step that sees the values that a context node lends. -/
def inContext (id : NodeId) (values : List (String × NodeId)) (step : Step α) : Step α := do
  let frame := Frame.current (← read).frames
  let id ← modifyGet fun s : BuildState =>
    let (id, frames) := s.frames.extend frame id
    (id, { s with frames := frames })
  inFrame ⟨id, values⟩ step

/-- A step that sees only the contexts around another one: the inner ones are cut off and put back
in front. -/
def inOuter (outer : List Frame) (step : Step α) : Step α :=
  between (seeing fun env => { env with frames := outer }) step fun x =>
    let hidden := x.env.frames.take (x.env.frames.length - outer.length)
    seeing fun env => { env with frames := hidden ++ env.frames }

/-- A step at the value of a key. -/
def withContextValue (key : String) (fallback : Option NodeId) (step : NodeId → Step α) :
    Step α := do
  match Frame.lookup? key (← read).frames with
  | some (node, outer) => inOuter outer (step node)
  | none =>
    match fallback with
    | some node => step node
    | none => fail (ScopeError.contextValue key)

/-- A step in a stage. In another stage the loops around are taken away; they are put back with the
stage. -/
def inStage (stage : Stage) (step : Step α) : Step α := do
  if stage = (← read).stage then step
  else
    between (seeing fun env => { env with stage := stage, loops := [] }) step fun x =>
      seeing fun env => { env with stage := x.env.stage, loops := x.env.loops }

/-- A step inside a loop: the loop is pushed and popped. -/
def inLoop (l : ActiveLoop) (step : Step α) : Step α :=
  between (seeing fun env => { env with loops := l :: env.loops }) step fun _ =>
    seeing fun env => { env with loops := env.loops.tail }

/-- A step whose statements go into a block of their own. The block is closed even if the step
fails. -/
def inBlock (step : Step Unit) : Step (List Statement) := fun x =>
  let (r, y) := step (x.changeHere StageBuild.openBlock)
  let statements := (y.state.stages.get y.env.stage).innerStatements
  (r.map fun _ => statements, y.changeHere StageBuild.closeBlock)

/-- A step below a node, which is on the path meanwhile. -/
def below (id : NodeId) (step : Step α) : Step α :=
  between (seeing fun env => { env with path := id :: env.path }) (located id step) fun _ =>
    seeing fun env => { env with path := env.path.tail }

/-- A step that finds the type of a node, which is among those whose type is being found
meanwhile. -/
def whileTyping (key : NodeId × FrameId) (step : Step α) : Step α := do
  if (← read).typing.contains key then fail (GraphError.typeCycle key.1)
  between (seeing fun env => { env with typing := key :: env.typing }) (located key.1 step) fun _ =>
    seeing fun env => { env with typing := env.typing.erase key }

/-- A step that reads a function, which is among those that are being read meanwhile. -/
def whileRegistering (id : FunctionId) (step : Step α) : Step α := fun x =>
  if x.registering.contains id then plain (fail GraphError.includeCycle) x
  else
    between (fun x => { x with registering := id :: x.registering }) step
      (fun _ y => { y with registering := y.registering.erase id }) x

end Machine

/-- The contexts around one that lends a value are the outer ones. -/
theorem Frame.lookup?_suffix {key : String} {frames outer : List Frame} {node : NodeId}
    (h : lookup? key frames = some (node, outer)) : outer <:+ frames := by
  induction frames with
  | nil => cases h
  | cons f rest ih =>
    unfold lookup? at h
    split at h
    · cases h
      exact List.suffix_cons f outer
    · exact (ih h).trans (List.suffix_cons f rest)

/-! ### What is restored -/

/-- What steps keep to that leave the open blocks as they are. -/
def Law.level : Law where
  inv _ _ := True
  rel _ s s' := ∀ t, (s'.stages.get t).openBlocks = (s.stages.get t).openBlocks
  ends _ := True
  refl _ _ := rfl
  trans h h' t := (h' t).trans (h t)
  mono _ _ := trivial
  loops _ _ := trivial
  ordinary _ := trivial
  located _ := trivial

namespace Machine

variable {α β : Type} {path : List FunctionId} {x y z : Machine}

/-- The registers, and the blocks that are open in each stage, are again what they were. -/
structure Restores (x y : Machine) : Prop where
  env : y.env = x.env
  registering : y.registering = x.registering
  blocks : ∀ t, (y.state.stages.get t).openBlocks = (x.state.stages.get t).openBlocks

namespace Restores

theorem refl (x : Machine) : x.Restores x := ⟨rfl, rfl, fun _ => rfl⟩

theorem trans (h : x.Restores y) (h' : y.Restores z) : x.Restores z :=
  ⟨h'.env.trans h.env, h'.registering.trans h.registering,
    fun t => (h'.blocks t).trans (h.blocks t)⟩

/-- Only the state is another one. -/
theorem eq (h : x.Restores y) : y = { x with state := y.state } := by
  obtain ⟨env, registering, state⟩ := y
  obtain ⟨rfl, rfl, -⟩ := h
  rfl

end Restores

/-- A machine ends as a build does: with the same value and state, or with the same failure. -/
def Follows (x : Machine) : Except Failure (α × BuildState) → Except Failure α × Machine → Prop
  | .ok (a, s), out => out = (.ok a, { x with state := s })
  | .error f, out => out.1 = .error f

/-- How a machine ends: the registers and the blocks are restored, and the end is that of a build if
the functions of a path are being read. -/
structure Ends (path : List FunctionId) (x : Machine) (r : Except Failure (α × BuildState))
    (out : Except Failure α × Machine) : Prop where
  restores : x.Restores out.2
  follows : x.registering = path → x.Follows r out

/-- A step of a machine does what a step of a build does. -/
def Realizes (path : List FunctionId) (m : Step α) (step : Build α) : Prop :=
  ∀ x : Machine, x.Ends path (step x.env x.state) (m x)

/-! ### Rules -/

theorem bind_step (m : Step α) (next : α → Step β) (x : Machine) :
    (m >>= next) x =
      match m x with
      | (.ok a, y) => next a y
      | (.error f, y) => (.error f, y) := rfl

instance : LawfulMonad Step :=
  .mk' Step
    (fun m => funext fun x => by
      show (m >>= Pure.pure) x = m x
      rw [bind_step]
      rcases m x with ⟨f | a, y⟩ <;> rfl)
    (fun _ _ => rfl)
    (fun m next last => funext fun x => by
      rw [bind_step, bind_step, bind_step]
      rcases m x with ⟨f | a, y⟩ <;> rfl)

namespace Realizes

variable {m : Step α} {step : Build α}

theorem pure (a : α) : Realizes path (Pure.pure a) (Pure.pure a) := fun x => ⟨.refl x, fun _ => rfl⟩

theorem bind {next : α → Step β} {next' : α → Build β} (h : Realizes path m step)
    (hn : ∀ a, Realizes path (next a) (next' a)) : Realizes path (m >>= next) (step >>= next') := by
  intro x
  obtain ⟨kept, first⟩ := h x
  rw [bind_step, bind_run]
  -- the second step starts where the first one has restored all but the state
  refine ⟨?_, fun hx => ?_⟩
  · rcases hm : m x with ⟨f | a, y⟩
    · rw [hm] at kept
      exact kept
    · rw [hm] at kept
      exact kept.trans (hn a y).restores
  · have first := first hx
    cases hs : step x.env x.state with
    | ok r =>
      rw [hs] at first
      rw [show m x = (.ok r.1, { x with state := r.2 }) from first]
      exact (hn r.1 { x with state := r.2 }).follows hx
    | error f =>
      rw [hs] at first
      rcases hm : m x with ⟨f' | a, y⟩
      · rw [hm] at first
        cases first
        rfl
      · rw [hm] at first
        cases first

/-- A step that leaves the open blocks as they are. -/
theorem lift (h : ∀ env, Law.level.Keeps env step) : Realizes path (liftM step : Step α) step := by
  intro x
  have level := h x.env x.state trivial
  show x.Ends path _ (plain step x)
  unfold plain
  cases hs : step x.env x.state with
  | ok r => exact ⟨⟨rfl, rfl, level.post hs⟩, fun _ => rfl⟩
  | error f => exact ⟨.refl x, fun _ => rfl⟩

theorem fail (c : Cause) : Realizes path (liftM (Build.fail c : Build α) : Step α) (Build.fail c) :=
  .lift fun _ _ _ => trivial

theorem ofExcept {ε : Type} [Coe ε Cause] (r : Except ε α) :
    Realizes path (liftM (Build.ofExcept r) : Step α) (Build.ofExcept r) := by
  refine .lift fun _ _ _ => ?_
  cases r with
  | ok a => exact fun _ => rfl
  | error e => trivial

theorem read : Realizes path (liftM (MonadReader.read : Build Env) : Step Env) MonadReader.read :=
  .lift fun _ _ _ _ => rfl

theorem get :
    Realizes path (liftM (MonadState.get : Build BuildState) : Step BuildState) MonadState.get :=
  .lift fun _ _ _ _ => rfl

theorem resolve (id : NodeId) :
    Realizes path (liftM (Build.resolve id) : Step NodeId) (Build.resolve id) := by
  refine .lift fun env s _ => ?_
  rw [meets_resolve]
  cases env.plan.resolve id with
  | ok m => exact fun _ => rfl
  | error e => trivial

theorem node (id : NodeId) :
    Realizes path (liftM (Build.node id) : Step Node) (Build.node id) := by
  refine .lift fun env s _ => ?_
  rw [meets_node]
  cases env.plan.node id with
  | ok n => exact fun _ => rfl
  | error e => trivial

theorem map (f : α → β) (h : Realizes path m step) : Realizes path (f <$> m) (f <$> step) := by
  rw [← bind_pure_comp, ← bind_pure_comp]
  exact h.bind fun a => .pure (f a)

theorem discard (h : Realizes path m step) : Realizes path (discard m) (discard step) :=
  h.map fun _ => PUnit.unit

theorem ite {c : Prop} [Decidable c] {m' : Step α} {step' : Build α} (h : c → Realizes path m step)
    (h' : ¬c → Realizes path m' step') :
    Realizes path (if c then m else m') (if c then step else step') := by
  split
  · next hc => exact h hc
  · next hc => exact h' hc

/-- A step that is taken under a condition only, and what follows in any case. -/
theorem when {c : Prop} [Decidable c] {check : Step Unit} {check' : Build Unit}
    {next : Unit → Step α} {next' : Unit → Build α} (h : Realizes path check check')
    (hn : ∀ u, Realizes path (next u) (next' u)) :
    Realizes path (if c then check >>= next else next ())
      (if c then check' >>= next' else next' ()) :=
  .ite (fun _ => h.bind hn) fun _ => hn ()

theorem mapM {f : α → Step β} {f' : α → Build β} (h : ∀ a, Realizes path (f a) (f' a))
    (xs : List α) : Realizes path (xs.mapM f) (xs.mapM f') := by
  induction xs with
  | nil =>
    rw [List.mapM_nil, List.mapM_nil]
    exact .pure []
  | cons x rest ih =>
    rw [List.mapM_cons, List.mapM_cons]
    exact (h x).bind fun y => ih.bind fun ys => .pure _

theorem forM {f : α → Step PUnit} {f' : α → Build PUnit} (h : ∀ a, Realizes path (f a) (f' a))
    (xs : List α) : Realizes path (xs.forM f) (xs.forM f') := by
  induction xs with
  | nil => exact .pure _
  | cons x rest ih => exact (h x).bind fun _ => ih

/-! ### Scopes -/

theorem located (id : NodeId) (h : Realizes path m step) :
    Realizes path (Machine.located id m) (Build.located id step) := by
  intro x
  obtain ⟨kept, first⟩ := h x
  unfold Machine.located Build.located
  rcases hm : m x with ⟨f | a, y⟩
  · rw [hm] at kept first
    refine ⟨kept, fun hx => ?_⟩
    have first := first hx
    cases hs : step x.env x.state with
    | ok r =>
      rw [hs] at first
      cases first
    | error f' =>
      rw [hs] at first
      cases first
      exact congrArg (fun env => Except.error (locate env id f)) kept.env
  · rw [hm] at kept first
    refine ⟨kept, fun hx => ?_⟩
    have first := first hx
    cases hs : step x.env x.state with
    | ok r =>
      rw [hs] at first
      exact first
    | error f' =>
      rw [hs] at first
      cases first

/-- The registers are changed for a step, and changed back after it. -/
theorem seeing {e : Env → Env} {back : Machine → Machine → Machine} {x : Machine}
    (h : Realizes path m step)
    (undo : ∀ s, back x { x with env := e x.env, state := s } = { x with state := s }) :
    x.Ends path (withReader e step x.env x.state) (between (Machine.seeing e) m back x) := by
  obtain ⟨kept, first⟩ := h (x.seeing e)
  refine ⟨?_, fun hx => ?_⟩
  -- on either exit the step has left the changed registers, which are all that is changed back
  · show x.Restores (back x (m (x.seeing e)).2)
    rw [kept.eq]
    exact (undo _).symm ▸ ⟨rfl, rfl, kept.blocks⟩
  · have first := first hx
    show x.Follows (step (e x.env) x.state) ((m (x.seeing e)).1, back x (m (x.seeing e)).2)
    have same : step (x.seeing e).env (x.seeing e).state = step (e x.env) x.state := rfl
    rw [same] at first
    cases hs : step (e x.env) x.state with
    | ok r =>
      rw [hs] at first
      rw [show m (x.seeing e) = (.ok r.1, { x.seeing e with state := r.2 }) from first]
      exact congrArg (Prod.mk _) (undo r.2)
    | error f =>
      rw [hs] at first
      exact first

theorem inScope (scope : ScopeId) (h : Realizes path m step) :
    Realizes path (Machine.inScope scope m) (Build.inScope scope step) :=
  fun _ => h.seeing fun _ => rfl

theorem inFrame (frame : Frame) (h : Realizes path m step) :
    Realizes path (Machine.inFrame frame m)
      (withReader (fun env => { env with frames := frame :: env.frames }) step) :=
  fun _ => h.seeing fun _ => rfl

theorem inContext (id : NodeId) (values : List (String × NodeId)) (h : Realizes path m step) :
    Realizes path (Machine.inContext id values m) (Build.inContext id values step) := by
  refine .bind .read fun env => .bind (.lift fun _ _ _ _ => rfl) fun frame => ?_
  exact .inFrame _ h

theorem withContextValue {m : NodeId → Step α} {step : NodeId → Build α} (key : String)
    (fallback : Option NodeId) (h : ∀ id, Realizes path (m id) (step id)) :
    Realizes path (Machine.withContextValue key fallback m)
      (Build.withContextValue key fallback step) := by
  intro x
  show x.Ends path ((match Frame.lookup? key x.env.frames with
    | some (node, outer) => withReader (fun env : Env => { env with frames := outer }) (step node)
    | none => match fallback with
      | some node => step node
      | none => Build.fail (ScopeError.contextValue key)) x.env x.state)
    ((match Frame.lookup? key x.env.frames with
    | some (node, outer) => inOuter outer (m node)
    | none => match fallback with
      | some node => m node
      | none => (liftM (Build.fail (ScopeError.contextValue key) : Build α) : Step α)) x)
  cases hl : Frame.lookup? key x.env.frames with
  | some found =>
    -- the contexts that are cut off are those in front of the outer ones
    obtain ⟨inner, hframes⟩ := Frame.lookup?_suffix hl
    refine (h found.1).seeing fun s => ?_
    have put :
        x.env.frames.take (x.env.frames.length - found.2.length) ++ found.2 = x.env.frames := by
      rw [← hframes, List.length_append, Nat.add_sub_cancel, List.take_left]
    show ({ x with env := { x.env with frames := _ }, state := s } : Machine) = _
    rw [put]
  | none =>
    cases fallback with
    | some node => exact h node x
    | none => exact Realizes.fail _ x

theorem inStage (t : Stage) (h : Realizes path m step) :
    Realizes path (Machine.inStage t m) (Build.inStage t step) := by
  refine .bind .read fun env => .ite (fun _ => h) fun _ x => ?_
  exact h.seeing fun _ => rfl

theorem inLoop (l : ActiveLoop) (h : Realizes path m step) :
    Realizes path (Machine.inLoop l m) (Build.inLoop l step) := fun _ => h.seeing fun _ => rfl

theorem below (id : NodeId) (h : Realizes path m step) :
    Realizes path (Machine.below id m) (Build.below id step) :=
  fun _ => (h.located id).seeing fun _ => rfl

theorem whileTyping (key : NodeId × FrameId) (h : Realizes path m step) :
    Realizes path (Machine.whileTyping key m) (Build.whileTyping key step) := by
  refine .bind .read fun env => ?_
  refine .when (.fail _) fun _ x => ?_
  refine (h.located key.1).seeing fun s => ?_
  show ({ x with env := { x.env with typing := (key :: x.env.typing).erase key }, state := s } :
    Machine) = _
  rw [List.erase_cons_head]

theorem whileRegistering (id : FunctionId) (h : Realizes (id :: path) m step) :
    Realizes path (Machine.whileRegistering id m)
      (if path.contains id then Build.fail GraphError.includeCycle else step) := by
  intro x
  unfold Machine.whileRegistering
  let y : Machine := { x with registering := id :: x.registering }
  obtain ⟨kept, first⟩ := h y
  refine ⟨?_, fun hx => ?_⟩
  · split
    · exact .refl x
    · refine ⟨kept.env, ?_, kept.blocks⟩
      show (m y).2.registering.erase id = x.registering
      rw [kept.registering, List.erase_cons_head]
  · rw [hx]
    split
    · rfl
    · have first := first (congrArg (id :: ·) hx)
      show x.Follows (step y.env y.state)
        ((m y).1, { (m y).2 with registering := (m y).2.registering.erase id })
      cases hs : step y.env y.state with
      | ok r =>
        rw [hs] at first
        rw [show m y = (.ok r.1, { y with state := r.2 }) from first]
        show (_, ({ x with registering := (id :: x.registering).erase id, state := r.2 } :
          Machine)) = _
        rw [List.erase_cons_head]
      | error f =>
        rw [hs] at first
        exact first

/-- A block is opened, and closed however the step ends. -/
theorem inBlock {m : Step Unit} {step : Build Unit} (h : Realizes path m step) :
    Realizes path (Machine.inBlock m) (Build.inBlock step) := by
  intro x
  let y := x.changeHere StageBuild.openBlock
  obtain ⟨kept, first⟩ := h y
  have run : Build.inBlock step x.env x.state =
      (step y.env y.state).map fun r => ((r.2.stages.get x.env.stage).innerStatements,
        { r.2 with stages := r.2.stages.modify x.env.stage StageBuild.closeBlock }) := by
    unfold Build.inBlock
    refine (bind_run (modifyHere StageBuild.openBlock) _ x.env x.state).trans ?_
    refine (bind_run step _ y.env y.state).trans ?_
    cases step y.env y.state <;> rfl
  have unfolded : Machine.inBlock m x =
      ((m y).1.map fun _ => ((m y).2.state.stages.get (m y).2.env.stage).innerStatements,
        (m y).2.changeHere StageBuild.closeBlock) := rfl
  rw [run, unfolded]
  -- the block is closed in the stage it was opened in, since the stage is a register
  refine ⟨⟨kept.env, kept.registering, fun t => ?_⟩, fun hx => ?_⟩
  · show (((m y).2.state.stages.modify (m y).2.env.stage
      StageBuild.closeBlock).get t).openBlocks = _
    rw [show (m y).2.env.stage = x.env.stage from congrArg Env.stage kept.env]
    exact PerStage.openBlocks_closed kept.blocks t
  · have first := first hx
    cases hs : step y.env y.state with
    | ok r =>
      rw [hs] at first
      rw [show m y = (.ok r.1, { y with state := r.2 }) from first]
      rfl
    | error f =>
      rw [hs] at first
      rw [show (m y).1 = .error f from first]
      rfl

end Realizes

end Machine

end ShaderGraph
