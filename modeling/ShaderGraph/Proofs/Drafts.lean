import ShaderGraph.Document.Lowering
import ShaderGraph.Proofs.Collections

/-!
# Graphs that documents are lowered to, on the way

A `Draft` is a graph that is being made from a document, with what the nodes of the document
became so far. `Draft.Sound` says what always holds of it between two steps:

* nodes refer to earlier ones only;
* a node has a name exactly if a node of the document became it, and then it refers to what the
  sources of that node became, in the order of the inputs; all others are helpers;
* only what an output is computed from (`Document.Used`) has become anything.

`Lower.Gives` says what a step leads to from a sound draft, `Lower.Adds` that its last act is to
add a node that fits a node of the document. Both only look at steps that end well. For each way to
compose steps there is a lemma that composes what they lead to.
-/

namespace ShaderGraph

/-! ### What is used of a document -/

/-- The inputs that a node is computed from. -/
def DocumentNode.ports (n : DocumentNode) : List String :=
  match n.kind with
  | "Varying" | "Var" | "Split" | "Convert" => ["node"]
  | "Operator" => ["a", "b"]
  | "Math" =>
    match (n.text? "method").bind MathMethod.read? with
    | some m => Lower.mathInputs.take m.arity
    | none => []
  | "Join" => Lower.joinInputs
  | "Select" => ["cond", "a", "b"]
  | "Texture" => ["uv", "level"]
  | "Remap" => ["value", "inLow", "inHigh", "outLow", "outHigh"]
  | _ => []

namespace Document

variable (d : Document)

/-- The node that is connected to an input of a node. -/
def source? (id key : String) : Option String := (d.incoming? id key).map fun c => c.source.node

/-- The nodes that are connected to a node, in the order of its inputs. -/
def sources (id : String) : List String :=
  match d.node? id with
  | some n => n.ports.filterMap (d.source? id)
  | none => []

/-- An output is computed from the node. -/
inductive Used : String → Prop
  | output {stage : Stage} {id : String} : d.outputs.get? stage.name = some id → Used id
  | source {id id' : String} : Used id → id' ∈ d.sources id → Used id'

variable {d}

theorem sources_of_node {id : String} {n : DocumentNode} (h : d.node? id = some n) :
    d.sources id = n.ports.filterMap (d.source? id) := by
  unfold sources
  rw [h]

theorem mem_sources {id key id' : String} {n : DocumentNode} (h : d.node? id = some n)
    (hk : key ∈ n.ports) (hs : d.source? id key = some id') : id' ∈ d.sources id := by
  rw [sources_of_node h]
  exact List.mem_filterMap.2 ⟨key, hk, hs⟩

end Document

/-! ### Names of nodes -/

namespace Graph

/-- The name that a node was given. -/
def mark? (g : Graph) (i : NodeId) : Option String := g.entries[i.index]?.bind Entry.label

variable {g : Graph} {i : NodeId}

theorem get?_push (g : Graph) (n : Node) (i : NodeId) :
    (g.push n).2.get? i = if i.index = g.size then some n else g.get? i := by
  unfold get? push size
  rw [Array.getElem?_push]
  split <;> rfl

theorem lt_size_of_get? {n : Node} (h : g.get? i = some n) : i.index < g.size := by
  by_contra hlt
  rw [get?_eq_none_iff.2 (Nat.le_of_not_lt hlt)] at h
  cases h

theorem exists_get? (h : i.index < g.size) : ∃ n, g.get? i = some n := by
  cases hn : g.get? i with
  | some n => exact ⟨n, rfl⟩
  | none => exact absurd (get?_eq_none_iff.1 hn) (Nat.not_le_of_lt h)

theorem mark?_eq_none (h : g.size ≤ i.index) : g.mark? i = none := by
  unfold mark?
  rw [Array.getElem?_eq_none h]
  rfl

theorem lt_size_of_mark? {id : String} (h : g.mark? i = some id) : i.index < g.size := by
  by_contra hlt
  rw [mark?_eq_none (Nat.le_of_not_lt hlt)] at h
  cases h

/-- A node that was given a name is called by it. -/
theorem label?_of_mark? {id : String} (h : g.mark? i = some id) : g.label? i = some id := by
  unfold mark? at h
  obtain ⟨e, he, hl⟩ := Option.bind_eq_some_iff.1 h
  unfold label?
  rw [he, Option.bind_some, hl]
  rfl

/-- A new node has no name. -/
theorem mark?_push (g : Graph) (n : Node) (i : NodeId) : (g.push n).2.mark? i = g.mark? i := by
  by_cases h : i.index = g.size
  · rw [mark?_eq_none (Nat.le_of_eq h.symm)]
    unfold mark? push
    rw [h]
    simp [size]
  · unfold size at h
    unfold mark? push
    rw [Array.getElem?_push, if_neg h]

theorem mark?_setLabel (g : Graph) (a i : NodeId) (l : String) :
    (g.setLabel a l).mark? i = if i = a ∧ i.index < g.size then some l else g.mark? i := by
  unfold mark? setLabel size
  rw [Array.getElem?_modify]
  by_cases h : a.index = i.index
  · have eq : i = a := by cases i; cases a; exact congrArg NodeId.mk h.symm
    subst eq
    rw [if_pos rfl]
    by_cases hi : i.index < g.entries.size
    · rw [if_pos ⟨rfl, hi⟩, Array.getElem?_eq_getElem hi]
      rfl
    · rw [if_neg fun h => hi h.2, Array.getElem?_eq_none (Nat.le_of_not_lt hi)]
      rfl
  · rw [if_neg h, if_neg fun (h' : i = a ∧ _) => h (h'.1 ▸ rfl)]

end Graph

/-! ### Drafts -/

/-- Whether a node neither lends values nor names a loop, is no layout and no custom node. -/
def NodeOf.isPlain {ρ μ : Type} : NodeOf ρ μ → Bool
  | context .. | loopIndex .. | structType .. | custom .. => false
  | _ => true

/-- A node that is added beside those of the document: a number of an input that is not connected,
or what texture coordinates come from where none are connected. -/
inductive Node.IsHelper : Node → Prop
  | number (v : Float) : IsHelper (.const .float [v])
  | coordinates : IsHelper (.meshAttribute "uv" (some .vec2))
  | carrier (source : NodeId) : IsHelper (.varying source (some "uv") .perspective none)
  | asked (fallback : NodeId) : IsHelper (.contextValue "uv" (some fallback))

theorem Node.IsHelper.isPlain {n : Node} (h : n.IsHelper) : n.isPlain = true := by
  cases h <;> rfl

/-- A graph that is being made, with what nodes of the document became. -/
structure Draft where
  graph : Graph
  known : OrderedMap String NodeId

namespace Draft

/-- What a node of the document became. -/
def became (s : Draft) (id : String) : NodeId := (s.known.get? id).getD ⟨0⟩

theorem became_of_known {s : Draft} {id : String} {i : NodeId} (h : s.known.get? id = some i) :
    s.became id = i := by
  unfold became
  rw [h]
  rfl

variable {d : Document} {path : List String} {s s' s'' : Draft} {i : NodeId} {id : String}

/-- What holds between two steps. -/
structure Sound (d : Document) (s : Draft) : Prop where
  back : ∀ {i n}, s.graph.get? i = some n → ∀ c ∈ n.children, c.index < i.index
  plain : ∀ {i n}, s.graph.get? i = some n → n.isPlain = true
  uv : ∀ {u}, s.graph.defaultUv = some u → u.index < s.graph.size
  marked : ∀ {i id}, s.known.get? id = some i ↔ s.graph.mark? i = some id
  helper : ∀ {i n}, s.graph.get? i = some n → s.graph.mark? i = none → n.IsHelper
  used : ∀ {i id}, s.known.get? id = some i → d.Used id
  listed : ∀ {i id}, s.known.get? id = some i → ∃ n, d.node? id = some n
  wired : ∀ {i id n}, s.known.get? id = some i → s.graph.get? i = some n →
    n.children.filterMap s.graph.mark? = d.sources id

/-- What is there stays, and no node on the path becomes anything. -/
structure Grows (path : List String) (s s' : Draft) : Prop where
  size : s.graph.size ≤ s'.graph.size
  entries : ∀ i < s.graph.size, s'.graph.entries[i]? = s.graph.entries[i]?
  known : ∀ {i id}, s.known.get? id = some i → s'.known.get? id = some i
  path : ∀ id ∈ path, s.known.get? id = none → s'.known.get? id = none

theorem Grows.refl (path : List String) (s : Draft) : Grows path s s :=
  ⟨Nat.le_refl _, fun _ _ => rfl, id, fun _ _ => id⟩

theorem Grows.trans (h : Grows path s s') (h' : Grows path s' s'') : Grows path s s'' where
  size := Nat.le_trans h.size h'.size
  entries i hi := (h'.entries i (Nat.lt_of_lt_of_le hi h.size)).trans (h.entries i hi)
  known hk := h'.known (h.known hk)
  path id hid hn := h'.path id hid (h.path id hid hn)

/-- Fewer nodes on the path are kept from becoming anything. -/
theorem Grows.mono {path' : List String} (h : Grows path' s s') (hp : ∀ id ∈ path, id ∈ path') :
    Grows path s s' := ⟨h.size, h.entries, h.known, fun id hid => h.path id (hp id hid)⟩

theorem Grows.mark? (h : Grows path s s') (hi : i.index < s.graph.size) :
    s'.graph.mark? i = s.graph.mark? i := by
  unfold Graph.mark?
  rw [h.entries _ hi]

/-- The draft with one more node. -/
def push (s : Draft) (n : Node) : Draft := ⟨(s.graph.push n).2, s.known⟩

/-- The draft where the last node is what a node of the document became. -/
def settle (s : Draft) (n : Node) (id : String) : Draft :=
  ⟨(s.graph.push n).2.setLabel ⟨s.graph.size⟩ id, s.known.put id ⟨s.graph.size⟩⟩

theorem Sound.empty (d : Document) (uid : Nat) : Sound d ⟨.empty uid, .empty⟩ where
  back h := nomatch h
  plain h := nomatch h
  uv h := nomatch h
  marked {_ _} := ⟨(nomatch ·), (nomatch ·)⟩
  helper h := nomatch h
  used h := nomatch h
  listed h := nomatch h
  wired h := nomatch h

theorem Sound.lt_size (h : Sound d s) (hk : s.known.get? id = some i) :
    i.index < s.graph.size := Graph.lt_size_of_mark? (h.marked.1 hk)

theorem grows_push (path : List String) (s : Draft) (n : Node) : Grows path s (s.push n) where
  size := by
    rw [push, Graph.size_push]
    exact Nat.le_succ _
  entries i hi := by
    unfold Graph.size at hi
    unfold push Graph.push
    rw [Array.getElem?_push, if_neg (Nat.ne_of_lt hi)]
  known h := h
  path _ _ h := h

/-- A helper was added. -/
theorem Sound.push (h : Sound d s) {n : Node} (hn : n.IsHelper)
    (hc : ∀ c ∈ n.children, c.index < s.graph.size) : Sound d (s.push n) where
  back {i _} hi := by
    rw [Draft.push, Graph.get?_push] at hi
    split at hi
    · next he =>
      cases hi
      exact fun c hmem => he ▸ hc c hmem
    · exact h.back hi
  plain hi := by
    rw [Draft.push, Graph.get?_push] at hi
    split at hi
    · cases hi
      exact hn.isPlain
    · exact h.plain hi
  uv hu := Nat.lt_of_lt_of_le (h.uv hu) (grows_push [] s n).size
  marked {_ _} := by
    rw [Draft.push, Graph.mark?_push]
    exact h.marked
  helper hi hm := by
    rw [Draft.push, Graph.get?_push] at hi
    rw [Draft.push, Graph.mark?_push] at hm
    split at hi
    · cases hi
      exact hn
    · exact h.helper hi hm
  used := h.used
  listed := h.listed
  wired {i _ _} hk hi := by
    rw [Draft.push, Graph.get?_push, if_neg (Nat.ne_of_lt (h.lt_size hk))] at hi
    have marks : (s.push n).graph.mark? = s.graph.mark? := funext (Graph.mark?_push s.graph n)
    rw [marks]
    exact h.wired hk hi

/-- A node refers to what the sources of a node of the document became, in order. -/
structure Fits (d : Document) (s : Draft) (id : String) (n : Node) : Prop where
  present : ∀ c ∈ n.children, c.index < s.graph.size
  plain : n.isPlain = true
  wired : n.children.filterMap s.graph.mark? = d.sources id

variable {n : Node}

theorem mark?_settle (s : Draft) (n : Node) (id : String) (i : NodeId) :
    (s.settle n id).graph.mark? i =
      if i.index = s.graph.size then some id else s.graph.mark? i := by
  rw [settle, Graph.mark?_setLabel, Graph.size_push, Graph.mark?_push]
  by_cases h : i.index = s.graph.size
  · rw [if_pos h, if_pos ⟨by cases i; exact congrArg NodeId.mk h, h ▸ Nat.lt_succ_self _⟩]
  · rw [if_neg h, if_neg fun (h' : i = ⟨s.graph.size⟩ ∧ _) => h (h'.1 ▸ rfl)]

theorem get?_settle (s : Draft) (n : Node) (id : String) (i : NodeId) :
    (s.settle n id).graph.get? i = if i.index = s.graph.size then some n else s.graph.get? i := by
  rw [settle, Graph.get?_setLabel, Graph.get?_push]

theorem grows_settle (hp : id ∉ path) (hk : s.known.get? id = none) :
    Grows path s (s.settle n id) where
  size := by
    rw [settle, Graph.size_setLabel, Graph.size_push]
    exact Nat.le_succ _
  entries i hi := by
    unfold Graph.size at hi
    unfold settle Graph.push Graph.setLabel Graph.size
    rw [Array.getElem?_modify, if_neg (Nat.ne_of_gt hi), Array.getElem?_push,
      if_neg (Nat.ne_of_lt hi)]
  known {_ id'} hi := by
    rw [settle, OrderedMap.get?_put, if_neg fun he => ?_]
    · exact hi
    · rw [he, hk] at hi
      cases hi
  path id' hid' hn := by
    rw [settle, OrderedMap.get?_put, if_neg fun he : id' = id => hp (he ▸ hid')]
    exact hn

/-- The marks of what a node refers to stay. -/
theorem filterMap_mark?_settle {cs : List NodeId} (hc : ∀ c ∈ cs, c.index < s.graph.size) :
    cs.filterMap (s.settle n id).graph.mark? = cs.filterMap s.graph.mark? := by
  refine List.filterMap_congr fun c hmem => ?_
  rw [mark?_settle, if_neg (Nat.ne_of_lt (hc c hmem))]

/-- A node of the document has become a node that fits. -/
theorem Sound.settle (h : Sound d s) (hf : Fits d s id n) (hk : s.known.get? id = none)
    (hu : d.Used id) (hl : ∃ m, d.node? id = some m) : Sound d (s.settle n id) where
  back {i _} hi := by
    rw [get?_settle] at hi
    split at hi
    · next he =>
      cases hi
      exact fun c hmem => he ▸ hf.present c hmem
    · exact h.back hi
  plain hi := by
    rw [get?_settle] at hi
    split at hi
    · cases hi
      exact hf.plain
    · exact h.plain hi
  uv hv := by
    have grows : Grows [] s (s.settle n id) := grows_settle List.not_mem_nil hk
    exact Nat.lt_of_lt_of_le (h.uv hv) grows.size
  marked {i id'} := by
    rw [mark?_settle]
    show (s.known.put id ⟨s.graph.size⟩).get? id' = some i ↔ _
    rw [OrderedMap.get?_put]
    by_cases he : id' = id
    · subst he
      rw [if_pos rfl]
      constructor
      · intro hi
        cases hi
        exact if_pos rfl
      · intro hi
        split at hi
        · next hs =>
          cases i
          exact congrArg (some <| NodeId.mk ·) hs.symm
        · rw [h.marked.2 hi] at hk
          cases hk
    · rw [if_neg he]
      split
      · next hs =>
        refine ⟨fun hi => absurd (h.lt_size hi) (Nat.not_lt_of_le (Nat.le_of_eq hs.symm)),
          fun hi => ?_⟩
        cases hi
        exact absurd rfl he
      · exact h.marked
  helper {i _} hi hm := by
    rw [mark?_settle] at hm
    rw [get?_settle] at hi
    split at hm
    · cases hm
    · next hne =>
      rw [if_neg hne] at hi
      exact h.helper hi hm
  used {_ id'} hi := by
    rcases OrderedMap.get?_of_put hi with ⟨rfl, -⟩ | ⟨-, hi⟩
    · exact hu
    · exact h.used hi
  listed {_ id'} hi := by
    rcases OrderedMap.get?_of_put hi with ⟨rfl, -⟩ | ⟨-, hi⟩
    · exact hl
    · exact h.listed hi
  wired {i id' m} hi hm := by
    rw [get?_settle] at hm
    rcases OrderedMap.get?_of_put hi with ⟨rfl, rfl⟩ | ⟨-, hi⟩
    · rw [if_pos rfl] at hm
      cases hm
      rw [filterMap_mark?_settle hf.present]
      exact hf.wired
    · have lt := h.lt_size hi
      rw [if_neg (Nat.ne_of_lt lt)] at hm
      rw [filterMap_mark?_settle fun c hc => Nat.lt_trans (h.back hm c hc) lt]
      exact h.wired hi hm

/-! ### Inputs -/

/-- A node stands for an input: if something is connected, it is what that became, else it has no
name. -/
structure Stands (d : Document) (id key : String) (a : NodeId) (s : Draft) : Prop where
  present : a.index < s.graph.size
  mark : s.graph.mark? a = d.source? id key

/-- What is found at an input stands for it; without a connection there may be nothing. -/
structure Reads (d : Document) (id key : String) (a : Option NodeId) (s : Draft) : Prop where
  present : ∀ i ∈ a, i.index < s.graph.size
  mark : a.bind s.graph.mark? = d.source? id key

theorem Reads.stands {key : String} {a : NodeId} (h : Reads d id key (some a) s) :
    Stands d id key a s := ⟨h.present a rfl, h.mark⟩

theorem Stands.reads {key : String} {a : NodeId} (h : Stands d id key a s) :
    Reads d id key (some a) s where
  present i hi := by
    cases hi
    exact h.present
  mark := h.mark

theorem Stands.grow {key : String} {a : NodeId} (h : Stands d id key a s) (hg : Grows path s s') :
    Stands d id key a s' :=
  ⟨Nat.lt_of_lt_of_le h.present hg.size, (hg.mark? h.present).trans h.mark⟩

theorem Reads.grow {key : String} {a : Option NodeId} (h : Reads d id key a s)
    (hg : Grows path s s') : Reads d id key a s' := by
  cases a with
  | none => exact ⟨fun i hi => (nomatch hi), h.mark⟩
  | some a => exact (h.stands.grow hg).reads

end Draft

/-! ### Steps -/

namespace Lower

open Draft

variable {d : Document} {path : List String} {s : Draft} {α β : Type} {P : α → Draft → Prop}
  {id : String}

/-- The step ends well. -/
def Runs (step : Lower α) (s : Draft) (a : α) (s' : Draft) : Prop :=
  step s.graph s.known = .ok ((a, s'.graph), s'.known)

theorem runs_bind {step : Lower α} {next : α → Lower β} {b : β} {s'' : Draft}
    (h : Runs (step >>= next) s b s'') : ∃ a s', Runs step s a s' ∧ Runs (next a) s' b s'' := by
  unfold Runs at h
  have run : (step >>= next) s.graph s.known =
      match step s.graph s.known with
      | .ok ((a, g), m) => next a g m
      | .error e => .error e := by
    show (do let r ← step s.graph s.known; next r.1.1 r.1.2 r.2 : Except DocumentError _) = _
    cases step s.graph s.known <;> rfl
  rw [run] at h
  split at h
  · next a g m hs => exact ⟨a, ⟨g, m⟩, hs, h⟩
  · cases h

theorem runs_pure {a a' : α} {s' : Draft} (h : Runs (pure a : Lower α) s a' s') :
    a' = a ∧ s' = s := by
  have eq := Except.ok.inj h
  obtain ⟨g', m'⟩ := s'
  cases eq
  exact ⟨rfl, rfl⟩

/-- From a sound draft the step leads to a sound draft that satisfies `P`, if it ends well. -/
def Gives (d : Document) (path : List String) (s : Draft) (step : Lower α)
    (P : α → Draft → Prop) : Prop :=
  Sound d s → ∀ a s', Runs step s a s' → Sound d s' ∧ Grows path s s' ∧ P a s'

/-- The last act of the step is to add a node that fits. -/
def Adds (d : Document) (path : List String) (s : Draft) (step : Lower NodeId) (id : String) :
    Prop :=
  Sound d s → ∀ a s', Runs step s a s' →
    ∃ s₁ n, Sound d s₁ ∧ Grows path s s₁ ∧ Fits d s₁ id n ∧ a = ⟨s₁.graph.size⟩ ∧ s' = s₁.push n

/-- A step that changes nothing. -/
def Still (step : Lower α) (P : α → Prop) : Prop :=
  ∀ s a s', Runs step s a s' → s' = s ∧ P a

theorem Gives.bind {step : Lower α} {next : α → Lower β} {Q : β → Draft → Prop}
    (h : Gives d path s step P)
    (hn : ∀ a s', Grows path s s' → P a s' → Gives d path s' (next a) Q) :
    Gives d path s (step >>= next) Q := by
  intro hs b s'' hr
  obtain ⟨a, s', hr, hr'⟩ := runs_bind hr
  obtain ⟨hs', hg, hp⟩ := h hs a s' hr
  obtain ⟨hs'', hg', hq⟩ := hn a s' hg hp hs' b s'' hr'
  exact ⟨hs'', hg.trans hg', hq⟩

theorem Gives.pure {a : α} (h : P a s) : Gives d path s (pure a) P := by
  intro hs a' s' hr
  obtain ⟨rfl, rfl⟩ := runs_pure hr
  exact ⟨hs, .refl path s', h⟩

theorem Gives.fail {f : DocumentFault} : Gives d path s (fail f : Lower α) P :=
  fun _ _ _ hr => nomatch hr

/-- What surrounds a step matters to its faults only. -/
theorem Runs.of_within {around : Surrounding} {step : Lower α} {a : α} {s' : Draft}
    (h : Runs (within around step) s a s') : Runs step s a s' := by
  unfold Runs within at h
  split at h
  · next hs => exact hs.trans h
  · cases h

theorem Adds.after {step : Lower α} {next : α → Lower NodeId} (h : Gives d path s step P)
    (hn : ∀ a s', Grows path s s' → P a s' → Adds d path s' (next a) id) :
    Adds d path s (step >>= next) id := by
  intro hs b s'' hr
  obtain ⟨a, s', hr, hr'⟩ := runs_bind hr
  obtain ⟨hs', hg, hp⟩ := h hs a s' hr
  obtain ⟨s₁, n, hs₁, hg', hf, he⟩ := hn a s' hg hp hs' b s'' hr'
  exact ⟨s₁, n, hs₁, hg.trans hg', hf, he⟩

theorem Adds.fail {f : DocumentFault} : Adds d path s (Lower.fail f) id :=
  fun _ _ _ hr => nomatch hr

theorem runs_push {n : Node} {a : NodeId} {s' : Draft} (h : Runs (Author.push n) s a s') :
    a = ⟨s.graph.size⟩ ∧ s' = s.push n := by
  have eq := Except.ok.inj h
  obtain ⟨g', m'⟩ := s'
  cases eq
  exact ⟨rfl, rfl⟩

theorem Adds.push {n : Node} (h : Fits d s id n) : Adds d path s (Author.push n) id := by
  intro hs a s' hr
  obtain ⟨rfl, rfl⟩ := runs_push hr
  exact ⟨s, n, hs, .refl path s, h, rfl, rfl⟩

theorem Still.pure {a : α} {Q : α → Prop} (h : Q a) : Still (Pure.pure a) Q := by
  intro s a' s' hr
  obtain ⟨rfl, rfl⟩ := runs_pure hr
  exact ⟨rfl, h⟩

theorem Still.fail {f : DocumentFault} {Q : α → Prop} : Still (Lower.fail f) Q :=
  fun _ _ _ hr => nomatch hr

theorem Still.bind {step : Lower α} {next : α → Lower β} {Q : α → Prop} {R : β → Prop}
    (h : Still step Q) (hn : ∀ a, Q a → Still (next a) R) : Still (step >>= next) R := by
  intro s b s'' hr
  obtain ⟨a, s', hr, hr'⟩ := runs_bind hr
  obtain ⟨rfl, hq⟩ := h s a s' hr
  exact hn a hq _ b s'' hr'

theorem Gives.of_still {step : Lower α} {Q : α → Prop} (h : Still step Q) :
    Gives d path s step fun a _ => Q a := by
  intro hs a s' hr
  obtain ⟨rfl, hq⟩ := h s a s' hr
  exact ⟨hs, .refl path s', hq⟩

/-- A helper is added. -/
theorem Gives.push {n : Node} (hn : n.IsHelper) (hc : ∀ c ∈ n.children, c.index < s.graph.size) :
    Gives d path s (Author.push n) fun a s' =>
      a.index < s'.graph.size ∧ s'.graph.mark? a = none := by
  intro hs a s' hr
  obtain ⟨rfl, rfl⟩ := runs_push hr
  refine ⟨hs.push hn hc, grows_push path s n, ?_, ?_⟩
  · rw [Draft.push, Graph.size_push]
    exact Nat.lt_succ_self _
  · rw [Draft.push, Graph.mark?_push]
    exact Graph.mark?_eq_none (Nat.le_refl _)

theorem Gives.known {next : Option NodeId → Lower α}
    (h : ∀ a, s.known.get? id = a → Gives d path s (next a) P) :
    Gives d path s (known? id >>= next) P :=
  fun hs a s' hr => h _ rfl hs a s' hr

theorem Gives.get {next : Graph → Lower α} (h : Gives d path s (next s.graph) P) :
    Gives d path s (MonadState.get >>= next) P :=
  fun hs a s' hr => h hs a s' hr

/-- The texture coordinates are kept for other textures. -/
theorem Gives.shareUv {u : NodeId} (hu : u.index < s.graph.size) :
    Gives d path s (modify fun g => { g with defaultUv := some u } : Lower PUnit)
      fun _ _ => True := by
  intro hs a s' hr
  have eq := Except.ok.inj hr
  obtain ⟨g', m'⟩ := s'
  cases eq
  refine ⟨⟨hs.back, hs.plain, fun hu' => ?_, hs.marked, hs.helper, hs.used, hs.listed, hs.wired⟩,
    ⟨Nat.le_refl _, fun _ _ => rfl, fun h => h, fun _ _ h => h⟩, trivial⟩
  cases hu'
  exact hu

/-- The same step for each key of a list. -/
theorem Gives.mapM {keys : List String} {f : String → Lower α} {Q : String → α → Draft → Prop}
    (hq : ∀ {key a s s'}, Q key a s → Grows path s s' → Q key a s')
    (h : ∀ key ∈ keys, ∀ s, Gives d path s (f key) (Q key)) :
    Gives d path s (keys.mapM f) fun as s' => List.Forall₂ (Q · · s') keys as := by
  induction keys generalizing s with
  | nil =>
    rw [List.mapM_nil]
    exact .pure .nil
  | cons key rest ih =>
    rw [List.mapM_cons]
    refine (h key (.head _) s).bind fun a s₁ _ ha => ?_
    refine (ih fun key' hk => h key' (.tail _ hk)).bind fun as s₂ hg has => ?_
    exact .pure (.cons (hq ha hg) has)

end Lower

end ShaderGraph
