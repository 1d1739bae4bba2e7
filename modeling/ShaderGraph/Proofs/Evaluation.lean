import Mathlib.Data.Finset.Card
import Mathlib.Data.Finset.Range
import Mathlib.Logic.Relation
import ShaderGraph.Proofs.Collections
import ShaderGraph.Proofs.Scopes

/-!
# Evaluation

How the value of a node comes from those of others, apart from any build: a `Situation` is a node
under the context nodes around it, and `Plan.Step` leads from a situation to those that it is
evaluated from. A context node is around what it refers to; a context value goes on at the value
that is lent, under the contexts around the one that lends it.

* `Plan.Acyclic` says that no node refers to itself, directly or through others. Then a step makes
  `Plan.weight` smaller (`Acyclic.weight_lt`), so evaluation ends.
* `Plan.Short` bounds the evaluations without repetition; `Acyclic.short` and
  `Settled.short` give bounds.
-/

namespace ShaderGraph

open Relation

/-- A node under the context nodes around it, innermost first. -/
structure Situation where
  node : NodeId
  around : List NodeId
deriving DecidableEq, Repr

/-- Whether a node changes what the nodes below it see, or has a place of its own in the state. -/
def NodeOf.isSpecial {ρ μ : Type} : NodeOf ρ μ → Bool
  | varying .. | var .. | context .. | contextValue .. | cache .. => true
  | _ => false

/-- Whether a node lends values or stands for one. -/
def NodeOf.isLexical {ρ μ : Type} : NodeOf ρ μ → Bool
  | context .. | contextValue .. => true
  | _ => false

theorem NodeOf.isLexical_of_isSpecial {ρ μ : Type} {n : NodeOf ρ μ} (h : n.isSpecial = false) :
    n.isLexical = false := by
  cases n <;> first | rfl | cases h

namespace Plan

variable {p : Plan} {roots : List NodeId} {σ τ : Situation}

/-- A situation is evaluated from another. -/
inductive Step (p : Plan) : Situation → Situation → Prop
  | child {id c m : NodeId} {n : Node} {around : List NodeId} :
      p.node id = .ok n → n.isLexical = false → c ∈ n.children → p.resolve c = .ok m →
      Step p ⟨id, around⟩ ⟨m, around⟩
  | inside {id c m : NodeId} {values : List (String × NodeId)} {around : List NodeId} :
      p.node id = .ok (.context c values) → p.resolve c = .ok m →
      Step p ⟨id, around⟩ ⟨m, id :: around⟩
  | lent {id c m : NodeId} {key : String} {fallback : Option NodeId}
      {around outer : List NodeId} :
      p.node id = .ok (.contextValue key fallback) → p.lookup? key around = some (c, outer) →
      p.resolve c = .ok m → Step p ⟨id, around⟩ ⟨m, outer⟩
  | fallback {id c m : NodeId} {key : String} {around : List NodeId} :
      p.node id = .ok (.contextValue key (some c)) → p.lookup? key around = none →
      p.resolve c = .ok m → Step p ⟨id, around⟩ ⟨m, around⟩

/-- A node refers to another, after replacements. -/
def Refers (p : Plan) (a b : NodeId) : Prop :=
  ∃ n c, p.node a = .ok n ∧ c ∈ n.children ∧ p.resolve c = .ok b

/-- No node refers to itself, directly or through others. -/
def Acyclic (p : Plan) : Prop := ∀ id, ¬TransGen p.Refers id id

/-- Evaluation of a root comes to a situation. -/
def Reaches (p : Plan) (roots : List NodeId) (σ : Situation) : Prop :=
  ∃ r ∈ roots, ∃ m, p.resolve r = .ok m ∧ ReflTransGen p.Step ⟨m, []⟩ σ

/-- The situations of a list, the last one first, lead from one to the next and to `σ`. -/
inductive Leads (p : Plan) : List Situation → Situation → Prop
  | nil {σ : Situation} : Leads p [] σ
  | cons {ts : List Situation} {τ σ : Situation} : Leads p ts τ → p.Step τ σ → Leads p (τ :: ts) σ

theorem Reaches.root {r m : NodeId} (hr : r ∈ roots) (hm : p.resolve r = .ok m) :
    p.Reaches roots ⟨m, []⟩ := ⟨r, hr, m, hm, .refl⟩

theorem Reaches.step (h : p.Reaches roots σ) (hs : p.Step σ τ) : p.Reaches roots τ := by
  obtain ⟨r, hr, m, hm, hg⟩ := h
  exact ⟨r, hr, m, hm, hg.tail hs⟩

theorem Reaches.trans (h : p.Reaches roots σ) (hs : ReflTransGen p.Step σ τ) :
    p.Reaches roots τ := by
  obtain ⟨r, hr, m, hm, hg⟩ := h
  exact ⟨r, hr, m, hm, hg.trans hs⟩

/-- Every situation of the list leads to the last one. -/
theorem Leads.transGen {ts : List Situation} (h : p.Leads ts σ) (hτ : τ ∈ ts) :
    TransGen p.Step τ σ := by
  induction h with
  | nil => cases hτ
  | cons h hs ih =>
    rcases List.mem_cons.1 hτ with rfl | hτ
    · exact .single hs
    · exact (ih hτ).tail hs

/-- Most nodes are evaluated from those they refer to. -/
theorem step_of_children {id : NodeId} {n : Node} {around : List NodeId} (hn : p.node id = .ok n)
    (hl : n.isLexical = false) : p.Step ⟨id, around⟩ τ ↔
      ∃ c ∈ n.children, ∃ m, p.resolve c = .ok m ∧ τ = ⟨m, around⟩ := by
  constructor
  · intro h
    cases h with
    | child hn' _ hc hm =>
      cases hn.symm.trans hn'
      exact ⟨_, hc, _, hm, rfl⟩
    | inside hn' | lent hn' | fallback hn' =>
      cases hn.symm.trans hn'
      cases hl
  · rintro ⟨c, hc, m, hm, rfl⟩
    exact .child hn hl hc hm

/-- A context node is evaluated from the node inside. -/
theorem step_of_context {id c : NodeId} {values : List (String × NodeId)} {around : List NodeId}
    (hn : p.node id = .ok (.context c values)) : p.Step ⟨id, around⟩ τ ↔
      ∃ m, p.resolve c = .ok m ∧ τ = ⟨m, id :: around⟩ := by
  constructor
  · intro h
    cases h with
    | inside hn' hm =>
      cases hn.symm.trans hn'
      exact ⟨_, hm, rfl⟩
    | child hn' hl | lent hn' | fallback hn' =>
      cases hn.symm.trans hn'
      try cases hl
  · rintro ⟨m, hm, rfl⟩
    exact .inside hn hm

/-- A context value is evaluated from the value that is lent. -/
theorem step_of_lent {id c : NodeId} {key : String} {fallback : Option NodeId}
    {around outer : List NodeId} (hn : p.node id = .ok (.contextValue key fallback))
    (hl : p.lookup? key around = some (c, outer)) : p.Step ⟨id, around⟩ τ ↔
      ∃ m, p.resolve c = .ok m ∧ τ = ⟨m, outer⟩ := by
  constructor
  · intro h
    cases h with
    | lent hn' hl' hm =>
      cases hn.symm.trans hn'
      cases hl.symm.trans hl'
      exact ⟨_, hm, rfl⟩
    | fallback hn' hl' =>
      cases hn.symm.trans hn'
      cases hl.symm.trans hl'
    | child hn' hs | inside hn' =>
      cases hn.symm.trans hn'
      try cases hs
  · rintro ⟨m, hm, rfl⟩
    exact .lent hn hl hm

/-- A context value that nothing is lent to is evaluated from its own value. -/
theorem step_of_fallback {id c : NodeId} {key : String} {around : List NodeId}
    (hn : p.node id = .ok (.contextValue key (some c))) (hl : p.lookup? key around = none) :
    p.Step ⟨id, around⟩ τ ↔ ∃ m, p.resolve c = .ok m ∧ τ = ⟨m, around⟩ := by
  constructor
  · intro h
    cases h with
    | fallback hn' hl' hm =>
      cases hn.symm.trans hn'
      exact ⟨_, hm, rfl⟩
    | lent hn' hl' =>
      cases hn.symm.trans hn'
      cases hl.symm.trans hl'
    | child hn' hs | inside hn' =>
      cases hn.symm.trans hn'
      try cases hs
  · rintro ⟨m, hm, rfl⟩
    exact .fallback hn hl hm

theorem Step.node_ok (h : p.Step σ τ) : ∃ n, p.node σ.node = .ok n := by
  cases h with
  | child hn => exact ⟨_, hn⟩
  | inside hn => exact ⟨_, hn⟩
  | lent hn => exact ⟨_, hn⟩
  | fallback hn => exact ⟨_, hn⟩

theorem Leads.node_ok {ts : List Situation} (h : p.Leads ts σ) (hτ : τ ∈ ts) :
    ∃ n, p.node τ.node = .ok n := by
  obtain ⟨τ', hs, -⟩ := TransGen.head'_iff.1 (h.transGen hτ)
  exact hs.node_ok

theorem lt_size_of_node {id : NodeId} {n : Node} (h : p.node id = .ok n) :
    id.index < p.graph.size := by
  by_contra hlt
  have := Graph.get?_eq_none_iff.2 (Nat.le_of_not_lt hlt)
  rw [graph_of_node h] at this
  cases this

/-- Different nodes of a plan are at most as many as there are. -/
theorem length_le_size {ids : List NodeId} (hn : ids.Nodup)
    (hk : ∀ id ∈ ids, ∃ n, p.node id = .ok n) : ids.length ≤ p.graph.size := by
  refine length_le_of_nodup (f := NodeId.index) (fun a b h => ?_) hn fun id hid => ?_
  · exact congrArg NodeId.mk h
  · obtain ⟨n, hn⟩ := hk id hid
    exact lt_size_of_node hn

/-- A bound on the evaluations without repetition. -/
def Short (p : Plan) (roots : List NodeId) (bound : Nat) : Prop :=
  ∀ ts σ, (∃ n, p.node σ.node = .ok n) → p.Leads ts σ → (∀ τ ∈ σ :: ts, p.Reaches roots τ) →
    (σ :: ts).Nodup → (σ :: ts).length ≤ bound

/-- How long evaluations without repetition are expected to be at most. -/
def bound (p : Plan) : Nat := 2 ^ p.graph.size

/-! ### Graphs without cycles -/

open Classical in
/-- The positions of the nodes that a node refers to, directly or through others, and its own. -/
noncomputable def below (p : Plan) (id : NodeId) : Finset Nat :=
  (Finset.range p.graph.size).filter fun i => ReflTransGen p.Refers id ⟨i⟩

theorem mem_below {id a : NodeId} :
    a.index ∈ p.below id ↔ a.index < p.graph.size ∧ ReflTransGen p.Refers id a := by
  classical
  unfold below
  rw [Finset.mem_filter, Finset.mem_range]

/-- How many nodes are below a node. -/
noncomputable def rank (p : Plan) (id : NodeId) : Nat := (p.below id).card

theorem rank_le_size (p : Plan) (id : NodeId) : p.rank id ≤ p.graph.size := by
  classical
  have := Finset.card_filter_le (Finset.range p.graph.size) fun i => ReflTransGen p.Refers id ⟨i⟩
  rwa [Finset.card_range] at this

theorem rank_pos {id : NodeId} {n : Node} (h : p.node id = .ok n) : 0 < p.rank id :=
  Finset.card_pos.2 ⟨id.index, mem_below.2 ⟨lt_size_of_node h, .refl⟩⟩

theorem Acyclic.rank_lt (hp : p.Acyclic) {a b : NodeId} (h : p.Refers a b) :
    p.rank b < p.rank a := by
  refine Finset.card_lt_card ⟨?_, ?_⟩
  · intro i hi
    obtain ⟨hlt, hg⟩ := mem_below.1 (show (⟨i⟩ : NodeId).index ∈ p.below b from hi)
    exact mem_below.2 ⟨hlt, .head h hg⟩
  · intro sub
    obtain ⟨n, c, hn, hc⟩ := h
    obtain ⟨-, hg⟩ := mem_below.1 (sub (mem_below.2 ⟨lt_size_of_node hn, .refl⟩))
    exact hp a (TransGen.head' ⟨n, c, hn, hc⟩ hg)

theorem acyclic_of_lt (h : ∀ a b, p.Refers a b → b.index < a.index) : p.Acyclic := by
  have earlier : ∀ a b, TransGen p.Refers a b → b.index < a.index := by
    intro a b hg
    induction hg with
    | single hr => exact h _ _ hr
    | tail _ hr ih => exact (h _ _ hr).trans ih
  exact fun id hg => Nat.lt_irrefl _ (earlier id id hg)

/-- Whether all nodes refer to earlier ones. -/
def refersBack (p : Plan) : Bool :=
  (List.range p.graph.size).all fun i =>
    match p.node ⟨i⟩ with
    | .error _ => true
    | .ok n =>
      n.children.all fun c =>
        match p.resolve c with
        | .ok m => m.index < i
        | .error _ => true

/-- Nodes that refer to earlier ones only do not refer to themselves. -/
theorem acyclic_of_refersBack (h : p.refersBack = true) : p.Acyclic := by
  refine acyclic_of_lt fun a b hr => ?_
  obtain ⟨n, c, hn, hc, hm⟩ := hr
  have node := List.all_eq_true.1 h a.index (List.mem_range.2 (lt_size_of_node hn))
  have hn : p.node ⟨a.index⟩ = .ok n := hn
  rw [hn] at node
  have child := List.all_eq_true.1 node c hc
  rw [hm] at child
  exact of_decide_eq_true child

/-- What a context node adds to the weight of a situation: the evaluation of a value that it
lends needs no more. -/
noncomputable def frameWeight (p : Plan) (id : NodeId) : Nat := 2 ^ (p.rank id - 1) - 1

/-- What some context nodes add to the weight of a situation. -/
noncomputable def aroundWeight (p : Plan) (around : List NodeId) : Nat :=
  (around.map p.frameWeight).sum

theorem aroundWeight_cons (p : Plan) (id : NodeId) (around : List NodeId) :
    p.aroundWeight (id :: around) = p.frameWeight id + p.aroundWeight around := rfl

/-- A measure of how long the evaluation of a situation can be. -/
noncomputable def weight (p : Plan) (σ : Situation) : Nat :=
  2 ^ p.rank σ.node + p.aroundWeight σ.around

theorem weight_mk (p : Plan) (id : NodeId) (around : List NodeId) :
    p.weight ⟨id, around⟩ = 2 ^ p.rank id + p.aroundWeight around := rfl

/-- A value that is looked up comes from one of the context nodes; the ones around it weigh
less. -/
theorem lookup?_refers {key : String} {around outer : List NodeId} {c m : NodeId}
    (hl : p.lookup? key around = some (c, outer)) (hm : p.resolve c = .ok m) :
    ∃ id, p.Refers id m ∧ p.frameWeight id + p.aroundWeight outer ≤ p.aroundWeight around := by
  induction around with
  | nil => cases hl
  | cons id rest ih =>
    rw [lookup?] at hl
    split at hl
    · next value hv =>
      cases hl
      refine ⟨id, ?_, Nat.le_refl _⟩
      unfold lent at hv
      split at hv
      · next inner values hn =>
        obtain ⟨l, l', hl, -⟩ := List.lookup_eq_some_iff.1 hv
        have mem : (key, c) ∈ values := by
          rw [← List.mem_reverse, hl]
          exact List.mem_append_right _ (.head _)
        refine ⟨.context inner values, c, ?_, ?_, hm⟩
        · unfold node
          rw [hn]
        · exact List.mem_cons_of_mem _ (List.mem_map.2 ⟨(key, c), mem, rfl⟩)
      · cases hv
    · obtain ⟨id', hr, hle⟩ := ih hl
      refine ⟨id', hr, ?_⟩
      rw [aroundWeight_cons]
      omega

theorem two_pow_pred {k : Nat} (h : 0 < k) : 2 ^ k = 2 ^ (k - 1) + 2 ^ (k - 1) := by
  obtain ⟨j, rfl⟩ := Nat.exists_eq_succ_of_ne_zero (Nat.pos_iff_ne_zero.1 h)
  rw [Nat.succ_sub_one, Nat.pow_succ]
  omega

/-- In a graph without cycles, evaluation makes situations lighter. -/
theorem Acyclic.weight_lt (hp : p.Acyclic) (h : p.Step σ τ) : p.weight τ < p.weight σ := by
  have pow_le : ∀ {a b : NodeId}, p.Refers a b → 2 ^ p.rank b ≤ 2 ^ (p.rank a - 1) := by
    intro a b hr
    have := hp.rank_lt hr
    exact Nat.pow_le_pow_right (by omega) (by omega)
  have pow_lt : ∀ {a b : NodeId}, p.Refers a b → 2 ^ p.rank b < 2 ^ p.rank a := by
    intro a b hr
    exact Nat.pow_lt_pow_right (by omega) (hp.rank_lt hr)
  cases h with
  | @child id c m n around hn hs hc hm =>
    have := pow_lt ⟨n, c, hn, hc, hm⟩
    rw [weight_mk, weight_mk]
    omega
  -- `2 ^ rank` splits in halves: one pays for the node inside, the other for the frame
  | @inside id c m values around hn hm =>
    have := pow_le ⟨_, c, hn, .head _, hm⟩
    have := two_pow_pred (rank_pos hn)
    have := Nat.two_pow_pos (p.rank id - 1)
    rw [weight_mk, weight_mk, aroundWeight_cons, frameWeight]
    omega
  | @lent id c m key fallback around outer hn hl hm =>
    -- the frame of `id'` was paid for: it weighs as much as a value that it lends
    obtain ⟨id', hr, hle⟩ := lookup?_refers hl hm
    have := pow_le hr
    have := Nat.one_lt_two_pow (Nat.pos_iff_ne_zero.1 (rank_pos hn))
    have := Nat.two_pow_pos (p.rank id' - 1)
    rw [frameWeight] at hle
    rw [weight_mk, weight_mk]
    omega
  | @fallback id c m key around hn hl hm =>
    have := pow_lt ⟨_, c, hn, List.mem_singleton_self c, hm⟩
    rw [weight_mk, weight_mk]
    omega

theorem Acyclic.weight_lt_of_transGen (hp : p.Acyclic) (h : TransGen p.Step σ τ) :
    p.weight τ < p.weight σ := by
  induction h with
  | single h => exact hp.weight_lt h
  | tail _ h ih => exact (hp.weight_lt h).trans ih

/-- Evaluation of a graph without cycles never comes back. -/
theorem Acyclic.not_recurs (hp : p.Acyclic) (σ : Situation) : ¬TransGen p.Step σ σ :=
  fun h => Nat.lt_irrefl _ (hp.weight_lt_of_transGen h)

/-- The situations of a list get lighter and lighter. -/
theorem Acyclic.length_add_weight_le (hp : p.Acyclic) {ts : List Situation} (h : p.Leads ts σ)
    {bound : Nat} (hb : ∀ τ ∈ ts, p.weight τ ≤ bound) :
    ts = [] ∨ ts.length + p.weight σ ≤ bound := by
  induction h with
  | nil => exact .inl rfl
  | cons h hs ih =>
    right
    have := hp.weight_lt hs
    have := hb _ (.head _)
    rcases ih fun τ hτ => hb τ (.tail _ hτ) with rfl | ih
    · rw [List.length_singleton]
      omega
    · rw [List.length_cons]
      omega

/-- In a graph without cycles evaluations are short. -/
theorem Acyclic.short (hp : p.Acyclic) (roots : List NodeId) :
    p.Short roots p.bound := by
  intro ts σ _ hl hr _
  -- all situations come from a root, which is under no contexts
  have bound : ∀ τ ∈ ts, p.weight τ ≤ p.bound := by
    intro τ hτ
    obtain ⟨r, -, m, -, hg⟩ := hr τ (.tail _ hτ)
    have root : p.weight ⟨m, []⟩ ≤ p.bound :=
      Nat.pow_le_pow_right (by omega) (p.rank_le_size m)
    rcases ReflTransGen.cases_head_iff.1 hg with rfl | ⟨τ', hs, hg⟩
    · exact root
    · exact Nat.le_of_lt ((hp.weight_lt_of_transGen (TransGen.head' hs hg)).trans_le root)
  have pos : 0 < p.weight σ := Nat.add_pos_left (Nat.two_pow_pos _) _
  rcases hp.length_add_weight_le hl bound with rfl | h
  · exact Nat.one_le_two_pow
  · rw [List.length_cons]
    omega

theorem size_le_bound (p : Plan) : p.graph.size ≤ p.bound := Nat.le_of_lt Nat.lt_two_pow_self

/-! ### Evaluations that come back under the same contexts only -/

/-- Evaluation comes back to a node only under the context nodes that were around it. -/
def Settled (p : Plan) (roots : List NodeId) : Prop :=
  ∀ σ τ, p.Reaches roots σ → TransGen p.Step σ τ → σ.node = τ.node → σ = τ

/-- Whatever the context nodes around it, a node is evaluated from the same nodes. -/
def Steady (p : Plan) (roots : List NodeId) : Prop :=
  ∀ σ σ' τ, p.Reaches roots σ → p.Reaches roots σ' → σ.node = σ'.node → p.Step σ τ →
    ∃ τ', p.Step σ' τ' ∧ τ'.node = τ.node

theorem Settled.nodup (hp : p.Settled roots) {ts : List Situation} (hl : p.Leads ts σ)
    (hr : ∀ τ ∈ σ :: ts, p.Reaches roots τ) (hn : (σ :: ts).Nodup) :
    ((σ :: ts).map Situation.node).Nodup := by
  induction hl with
  | nil => exact List.nodup_singleton _
  | @cons ts τ σ hl hs ih =>
    obtain ⟨hσ, hn⟩ := List.nodup_cons.1 hn
    refine List.nodup_cons.2 ⟨?_, ih (fun τ' h => hr τ' (.tail _ h)) hn⟩
    intro h
    obtain ⟨τ', hτ', he⟩ := List.mem_map.1 h
    -- an earlier situation of the same node would be this one
    cases hp τ' σ (hr τ' (.tail _ hτ')) ((Leads.cons hl hs).transGen hτ') he
    exact hσ hτ'

/-- Evaluations that come back under the same contexts only are short. -/
theorem Settled.short (hp : p.Settled roots) : p.Short roots p.bound := by
  intro ts σ hσ hl hr hn
  have := length_le_size (p := p) (hp.nodup hl hr hn) ?_
  · rw [List.length_map] at this
    exact this.trans p.size_le_bound
  · intro id hid
    obtain ⟨τ, hτ, rfl⟩ := List.mem_map.1 hid
    rcases List.mem_cons.1 hτ with rfl | hτ
    · exact hσ
    · exact hl.node_ok hτ

/-- Without context nodes, no contexts are around any node. -/
theorem around_of_flat (hp : ∀ id inner values, p.node id ≠ .ok (.context inner values))
    (hσ : p.Reaches roots σ) : σ.around = [] := by
  obtain ⟨r, -, m, -, hg⟩ := hσ
  induction hg with
  | refl => rfl
  | tail _ hs ih =>
    cases hs with
    | child => exact ih
    | inside hn => exact absurd hn (hp _ _ _)
    | lent _ hl =>
      cases ih
      cases hl
    | fallback => exact ih

theorem eq_of_flat (hp : ∀ id inner values, p.node id ≠ .ok (.context inner values))
    (hσ : p.Reaches roots σ) (hτ : p.Reaches roots τ) (h : σ.node = τ.node) : σ = τ := by
  have hσ := around_of_flat hp hσ
  have hτ := around_of_flat hp hτ
  obtain ⟨m, around⟩ := σ
  obtain ⟨m', around'⟩ := τ
  cases h
  cases hσ
  cases hτ
  rfl

/-- Without context nodes, evaluation comes back under the same contexts only, and a node is
evaluated from the same nodes. -/
theorem settled_of_flat (hp : ∀ id inner values, p.node id ≠ .ok (.context inner values)) :
    p.Settled roots :=
  fun _ _ hσ hg h => eq_of_flat hp hσ (hσ.trans hg.to_reflTransGen) h

theorem steady_of_flat (hp : ∀ id inner values, p.node id ≠ .ok (.context inner values)) :
    p.Steady roots := by
  intro σ σ' τ hσ hσ' h hs
  cases eq_of_flat hp hσ hσ' h
  exact ⟨τ, hs, rfl⟩

end Plan

end ShaderGraph
