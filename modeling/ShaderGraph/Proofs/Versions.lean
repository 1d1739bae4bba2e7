import Mathlib.Data.List.Chain
import Mathlib.Order.Basic
import ShaderGraph.Graph.Author

/-!
# Versions of a graph

`Author.Shows` lists the moments at which a graph can be looked at while it is composed, those inside
the body of a loop included. Every call that changes what the graph consists of raises its version,
with one exception: when the body of a loop is complete, the loop gets it without a new version
(`Graph.closeLoop`). So the version never falls, and at two moments of the same version the graph has
the same functions and the same nodes except for the loops that were closed in between, which have
got their bodies (`Author.shows_versions`).
-/

namespace ShaderGraph

/-- A moment at which a graph is looked at, and the loops whose bodies are being composed then, the
innermost first. -/
structure Moment where
  graph : Graph
  pending : List NodeId

/-- A node with a body, if it is a loop. -/
def NodeOf.withBody {ρ μ : Type} (body : ρ) : NodeOf ρ μ → NodeOf ρ μ
  | .loop params _ => .loop params (some body)
  | n => n

theorem NodeOf.withBody_withBody {ρ μ : Type} (b b' : ρ) (n : NodeOf ρ μ) :
    (n.withBody b).withBody b' = n.withBody b' := by
  cases n <;> rfl

/-! ### Moments -/

namespace Author

variable {α β : Type}

/-- A call that is over when it returns. -/
inductive Call : ∀ {α : Type}, AuthorT Id α → Prop
  | get : Call (MonadState.get : AuthorT Id Graph)
  | push (node : Node) : Call (Author.push node)
  | replace (id : NodeId) (node : Node) : Call (Author.replace id node)
  | setLabel (id : NodeId) (label : String) : Call (Author.setLabel id label)
  | nativeFunction (source : String) (dialect : Dialect) (includes : List FunctionId) :
      Call (Author.nativeFunction source dialect includes)
  | defaultUv : Call Author.defaultUv

/-- The counters of a loop. -/
def counters (loop : NodeId) (count : Nat) : AuthorT Id (List NodeId) :=
  (List.range count).mapM fun i => push (.loopIndex loop i)

/-- The moment after a step that leaves no loop open. -/
def after (step : AuthorT Id α) (m : Moment) : Moment := ⟨(step m.graph).2, m.pending⟩

/-- The moment at which the body of a loop starts. -/
def opened (params : List (LoopParam NodeId)) (m : Moment) : Moment :=
  let (loop, g) := m.graph.push (.loop params none)
  ⟨(counters loop params.length g).2, loop :: m.pending⟩

/-- The counters that the body of a loop is given. -/
def given (params : List (LoopParam NodeId)) (m : Moment) : List NodeId :=
  let (loop, g) := m.graph.push (.loop params none)
  (counters loop params.length g).1

/-- The moments that a step shows from a moment on, one after the other: that before and that after
each call, and those inside the body of a loop. -/
inductive Shows : ∀ {α : Type}, AuthorT Id α → Moment → List Moment → Prop
  | pure {α : Type} (a : α) (m : Moment) : Shows (Pure.pure a) m [m]
  | bind {α β : Type} {step : AuthorT Id α} {next : α → AuthorT Id β} {m : Moment}
      {ms ms' : List Moment} (h : Shows step m ms)
      (hn : Shows (next (step m.graph).1) (after step m) ms') : Shows (step >>= next) m (ms ++ ms')
  | call {α : Type} {step : AuthorT Id α} (h : Call step) (m : Moment) :
      Shows step m [m, after step m]
  | loop (params : List (LoopParam NodeId)) {body : List NodeId → AuthorT Id NodeId} {m : Moment}
      {ms : List Moment} (h : Shows (body (given params m)) (opened params m) ms) :
      Shows (Author.loop params body) m (m :: ms ++ [after (Author.loop params body) m])

end Author

/-! ### Later moments -/

namespace Moment

variable {m m' m'' : Moment}

/-- From one moment to a later one of the same version, only the bodies of some loops were put in,
which were the innermost open ones. -/
def Settles (m m' : Moment) : Prop :=
  m.graph.functions = m'.graph.functions ∧ ∃ closed, m.pending = closed ++ m'.pending ∧
    (∀ id ∉ closed, m'.graph.get? id = m.graph.get? id) ∧
    ∀ id ∈ closed, ∃ body, m'.graph.get? id = (m.graph.get? id).map (NodeOf.withBody body)

/-- A later moment: a higher version, or the same one with the bodies of some loops put in. -/
def Precedes (m m' : Moment) : Prop :=
  m.graph.version < m'.graph.version ∨ m.graph.version = m'.graph.version ∧ m.Settles m'

theorem Settles.of_same (functions : m.graph.functions = m'.graph.functions)
    (pending : m.pending = m'.pending) (nodes : ∀ id, m'.graph.get? id = m.graph.get? id) :
    m.Settles m' :=
  ⟨functions, [], pending, fun id _ => nodes id, fun _ h => nomatch h⟩

theorem Settles.refl (m : Moment) : m.Settles m := .of_same rfl rfl fun _ => rfl

theorem Settles.trans (h : m.Settles m') (h' : m'.Settles m'') : m.Settles m'' := by
  obtain ⟨functions, closed, pending, kept, filled⟩ := h
  obtain ⟨functions', closed', pending', kept', filled'⟩ := h'
  refine ⟨functions.trans functions', closed ++ closed', ?_, fun id hid => ?_, fun id hid => ?_⟩
  · rw [pending, pending', List.append_assoc]
  · rw [List.mem_append, not_or] at hid
    rw [kept' id hid.2, kept id hid.1]
  · by_cases second : id ∈ closed'
    · obtain ⟨body', put'⟩ := filled' id second
      refine ⟨body', ?_⟩
      by_cases first : id ∈ closed
      · obtain ⟨body, put⟩ := filled id first
        rw [put', put, Option.map_map]
        exact congrFun (congrArg Option.map (funext (NodeOf.withBody_withBody body body'))) _
      · rw [put', kept id first]
    · obtain ⟨body, put⟩ := filled id ((List.mem_append.1 hid).resolve_right second)
      exact ⟨body, by rw [kept' id second, put]⟩

theorem Precedes.refl (m : Moment) : m.Precedes m := .inr ⟨rfl, .refl m⟩

theorem Precedes.trans (h : m.Precedes m') (h' : m'.Precedes m'') : m.Precedes m'' := by
  rcases h with lower | ⟨same, settles⟩
  · exact .inl (lower.trans_le (h'.elim Nat.le_of_lt fun h => h.1.le))
  · rcases h' with lower' | ⟨same', settles'⟩
    · exact .inl (same.trans_lt lower')
    · exact .inr ⟨same.trans same', settles.trans settles'⟩

instance : IsTrans Moment Precedes := ⟨fun _ _ _ => Precedes.trans⟩

end Moment

/-! ### Steps -/

namespace Author

open Moment

variable {α : Type} {step : AuthorT Id α} {m : Moment} {ms : List Moment}

/-- A call raises the version, or no node and no function changes. -/
theorem Call.precedes (h : Call step) (m : Moment) : m.Precedes (after step m) := by
  have raised : m.graph.version < (after step m).graph.version → m.Precedes (after step m) := .inl
  cases h with
  | get => exact .refl m
  | push node => exact raised (Nat.lt_succ_self _)
  | replace id node =>
    by_cases inside : id.index < m.graph.size
    · refine raised ?_
      show _ < (m.graph.replace id node).version
      rw [Graph.replace, if_pos inside]
      exact Nat.lt_succ_self _
    · have same : m.graph.replace id node = m.graph := if_neg inside
      refine .inr ⟨congrArg Graph.version same.symm, ?_⟩
      exact .of_same (congrArg Graph.functions same.symm) rfl fun id' =>
        congrArg (Graph.get? · id') same
  | setLabel id label =>
    exact .inr ⟨rfl, .of_same rfl rfl fun id' => m.graph.get?_setLabel id id' label⟩
  | nativeFunction source dialect includes => exact raised (Nat.lt_succ_self _)
  | defaultUv =>
    have here : (MonadState.get : AuthorT Id Graph) m.graph = (m.graph, m.graph) := rfl
    unfold after Author.defaultUv at raised ⊢
    dsimp only [bind, StateT.bind] at raised ⊢
    rw [here] at raised ⊢
    dsimp only at raised ⊢
    cases hd : m.graph.defaultUv with
    | some id => exact .refl m
    | none =>
      rw [hd] at raised
      exact raised (Nat.lt_succ_of_lt (Nat.lt_succ_self _))

theorem version_counters (loop : NodeId) (count : Nat) (g : Graph) :
    g.version ≤ (counters loop count g).2.version := by
  unfold counters
  induction List.range count generalizing g with
  | nil => exact le_rfl
  | cons i rest ih =>
    rw [List.mapM_cons]
    exact (Nat.le_succ _).trans (ih (g.push (.loopIndex loop i)).2)

/-- A loop is a new node, and so are its counters. -/
theorem precedes_opened (params : List (LoopParam NodeId)) (m : Moment) :
    m.Precedes (opened params m) :=
  .inl (Nat.lt_of_succ_le (version_counters _ _ (m.graph.push (.loop params none)).2))

end Author

namespace Graph

theorem get?_closeLoop (g : Graph) (loop body id : NodeId) : (g.closeLoop loop body).get? id =
    if id = loop then (g.get? id).map (NodeOf.withBody body) else g.get? id := by
  have index : id = loop ↔ loop.index = id.index := by
    cases id
    cases loop
    simp [eq_comm]
  rw [closeLoop, get?, Array.getElem?_modify]
  by_cases same : id = loop
  · rw [if_pos same, if_pos (index.1 same), Option.map_map, get?, Option.map_map]
    refine congrFun (congrArg Option.map (funext fun e => ?_)) _
    obtain ⟨node, label⟩ := e
    cases node <;> rfl
  · rw [if_neg same, if_neg fun h => same (index.2 h)]
    rfl

end Graph

namespace Author

open Moment

variable {α : Type} {step : AuthorT Id α} {m : Moment} {ms : List Moment}

/-- The body that is put in when a loop is closed is the only change. -/
theorem precedes_closed (params : List (LoopParam NodeId)) (body : List NodeId → AuthorT Id NodeId)
    (m : Moment) : (after (body (given params m)) (opened params m)).Precedes
      (after (Author.loop params body) m) := by
  let loop := (m.graph.push (.loop params none)).1
  let inner := after (body (given params m)) (opened params m)
  have closing : after (Author.loop params body) m =
      ⟨inner.graph.closeLoop loop (body (given params m) (opened params m).graph).1, m.pending⟩ := rfl
  rw [closing]
  refine .inr ⟨rfl, rfl, [loop], rfl, fun id hid => ?_, fun id hid => ?_⟩
  · rw [Graph.get?_closeLoop, if_neg fun h => hid (List.mem_singleton.2 h)]
  · exact ⟨_, by rw [Graph.get?_closeLoop, if_pos (List.mem_singleton.1 hid)]⟩

theorem Shows.head (h : Shows step m ms) : ms.head? = some m := by
  induction h with
  | bind _ _ ih _ => rw [List.head?_append, ih, Option.some_or]
  | _ => rfl

theorem Shows.last (h : Shows step m ms) : ms.getLast? = some (after step m) := by
  induction h with
  | bind _ _ _ ihn => rw [List.getLast?_append, ihn, Option.some_or]; rfl
  | loop _ _ _ => rw [List.getLast?_append]; rfl
  | _ => rfl

/-- Each moment precedes the next one. -/
theorem Shows.chain (h : Shows step m ms) : ms.IsChain Precedes := by
  induction h with
  | pure a m => exact List.isChain_singleton m
  | bind h hn ih ihn =>
    refine List.isChain_append.2 ⟨ih, ihn, fun x hx y hy => ?_⟩
    rw [h.last, Option.mem_some_iff] at hx
    rw [hn.head, Option.mem_some_iff] at hy
    subst hx hy
    exact .refl _
  | call h m => exact List.isChain_pair.2 (h.precedes m)
  | @loop params body m ms h ih =>
    refine List.isChain_append.2 ⟨?_, List.isChain_singleton _, fun x hx y hy => ?_⟩
    · refine List.isChain_cons.2 ⟨fun y hy => ?_, ih⟩
      rw [h.head, Option.mem_some_iff] at hy
      subst hy
      exact precedes_opened params m
    · rw [List.getLast?_cons, h.last, Option.mem_some_iff] at hx
      rw [List.head?_cons, Option.mem_some_iff] at hy
      subst hx hy
      exact precedes_closed params body m

/-- Whatever is composed, the version never falls. At two moments of the same version, the graph has
the same functions; the loops that are open at the later moment were open at the earlier one, inside
the loops that were closed in between; and no node changed but those loops, each of which got its
body. -/
theorem shows_versions (h : Shows step m ms) : ms.Pairwise fun m m' =>
    m.graph.version ≤ m'.graph.version ∧ (m.graph.version = m'.graph.version → m.Settles m') := by
  refine (List.isChain_iff_pairwise.1 h.chain).imp fun {m m'} precedes => ?_
  rcases precedes with lower | ⟨same, settles⟩
  · exact ⟨Nat.le_of_lt lower, fun same => absurd same (Nat.ne_of_lt lower)⟩
  · exact ⟨same.le, fun _ => settles⟩

/-- A loop of two rounds that is left in the first one. -/
def leaving : AuthorT Id NodeId := Author.loop [.count 2] fun _ => Author.jump .leave

/-- The moments of composing the loop: before it, at the start and at the end of its body, and after
it. -/
def leavingMoments : List Moment :=
  let start : Moment := ⟨.empty 1, []⟩
  let inside := opened [.count 2] start
  start :: [inside, after (Author.jump .leave) inside] ++ [after leaving start]

theorem leaving_shows : Shows leaving ⟨.empty 1, []⟩ leavingMoments :=
  .loop [.count 2] (.call (.push _) _)

theorem leaving_versions : Shows leaving ⟨.empty 1, []⟩ leavingMoments ∧
    leavingMoments.Pairwise fun m m' => m.graph.version ≤ m'.graph.version ∧
      (m.graph.version = m'.graph.version → m.Settles m') :=
  ⟨leaving_shows, shows_versions leaving_shows⟩

/-- At the end of its body the loop has none yet, and the version is the one after it. -/
theorem leaving_unversioned : Shows leaving ⟨.empty 1, []⟩ leavingMoments ∧
    ∃ m ∈ leavingMoments, ∃ m' ∈ leavingMoments, m.graph.version = m'.graph.version ∧
      m.graph.get? ⟨0⟩ = some (.loop [.count 2] none) ∧
      m'.graph.get? ⟨0⟩ = some (.loop [.count 2] (some ⟨2⟩)) := by
  refine ⟨leaving_shows, after (Author.jump .leave) (opened [.count 2] ⟨.empty 1, []⟩), ?_,
    after leaving ⟨.empty 1, []⟩, ?_, ?_⟩
  · exact .tail _ (.tail _ (.head _))
  · exact .tail _ (.tail _ (.tail _ (.head _)))
  · exact ⟨rfl, rfl, rfl⟩

end Author

end ShaderGraph
