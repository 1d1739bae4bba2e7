import ShaderGraph.Build.Run
import ShaderGraph.Proofs.Collections
import ShaderGraph.Proofs.Scopes

/-!
# What the roots refer to

`Plan.Below` are the references that are met on the way down from the roots: after replacements,
from a node to all that it refers to.

* A search that keeps a list of what is to be visited ends before its fuel does: what the nodes
  not yet seen refer to (`Plan.unseen`) gets smaller by what is added to the list.
* When the search for nodes still to be replaced finds none, all below the roots is there and
  nothing of it is to be replaced (`Plan.settled_of_pending`).
* What adding the nodes that a node stands for keeps to, making a plan does (`Plan.make_keeps`). It
  leaves alone what the setup leaves alone (`Plan.addExpansion_keeps`).
-/

namespace ShaderGraph

namespace Plan

variable {p : Plan} {roots : List NodeId}

/-- The references that are met on the way down from the roots: what is built in the place of
one, and what is built refers to others. -/
inductive Below (p : Plan) (roots : List NodeId) : NodeId → Prop
  | root {r : NodeId} : r ∈ roots → Below p roots r
  | resolved {id m : NodeId} : Below p roots id → p.resolve id = .ok m → Below p roots m
  | child {id c : NodeId} {n : Node} : Below p roots id → p.resolve id = .ok id →
      p.node id = .ok n → c ∈ n.children → Below p roots c

/-- A reference means a node that is there and is not to be replaced. -/
def IsSettled (p : Plan) (id : NodeId) : Prop :=
  ∃ m n, p.resolve id = .ok m ∧ p.node m = .ok n ∧ n.isExpandable = false

/-! ### Searches -/

/-- How much the nodes of the graph refer to, those of a list excepted. -/
def unseen (p : Plan) (seen : List NodeId) : Nat :=
  (p.graph.entries.toList.zipIdx.map fun e =>
    if NodeId.mk e.2 ∈ seen then 0 else e.1.node.children.length).sum

theorem unseen_nil (p : Plan) : p.unseen [] = referenceCount p.graph := by
  have fold : ∀ (es : List Entry) (k n : Nat),
      es.foldl (fun n e => n + e.node.children.length) n =
        n + ((es.zipIdx k).map fun e => e.1.node.children.length).sum := by
    intro es
    induction es with
    | nil => intro k n; rfl
    | cons e rest ih =>
      intro k n
      rw [List.foldl_cons, ih (k + 1), List.zipIdx_cons, List.map_cons, List.sum_cons,
        Nat.add_assoc]
  unfold unseen referenceCount
  rw [← Array.foldl_toList, fold _ 0]
  simp

/-- At the start of a search there is fuel enough. -/
theorem lt_fuel (p : Plan) (ids : List NodeId) :
    ids.length + p.unseen [] < ids.length + referenceCount p.graph + 1 := by
  rw [unseen_nil]
  exact Nat.lt_succ_self _

/-- What is seen now was counted before. -/
theorem unseen_cons {m : NodeId} {n : Node} (hn : p.node m = .ok n) {seen : List NodeId}
    (hm : m ∉ seen) : p.unseen (m :: seen) + n.children.length ≤ p.unseen seen := by
  have hg := graph_of_node hn
  unfold Graph.get? at hg
  obtain ⟨e, he, rfl⟩ := Option.map_eq_some_iff.1 hg
  have mem : (e, m.index) ∈ p.graph.entries.toList.zipIdx := by
    rw [List.mem_zipIdx_iff_getElem?, Array.getElem?_toList]
    exact he
  exact sum_outside_cons (fun e : Entry × Nat => NodeId.mk e.2)
    (fun e => e.1.node.children.length) mem hm

/-- The search keeps what it has found. -/
theorem subset_pendingFrom {fuel : Nat} {ids visited pending found : List NodeId}
    (h : p.pendingFrom fuel ids visited pending = .ok found) : pending ⊆ found := by
  induction fuel generalizing ids visited pending with
  | zero => cases ids <;> cases h <;> exact fun _ => id
  | succ fuel ih =>
    cases ids with
    | nil =>
      cases h
      exact fun _ => id
    | cons id rest =>
      rw [pendingFrom] at h
      split at h
      · cases h
      · split at h
        · exact ih h
        · split at h
          · cases h
          · split at h
            · exact fun x hx => ih h (List.mem_append_left _ hx)
            · exact ih h

/-- A search that finds nothing to replace leads to nodes that are all there and refer to each
other only. -/
theorem closed_of_pendingFrom {fuel : Nat} {ids visited : List NodeId}
    (h : p.pendingFrom fuel ids visited [] = .ok [])
    (hf : ids.length + p.unseen visited < fuel) :
    ∃ all, visited ⊆ all ∧ (∀ id ∈ ids, ∃ m ∈ all, p.resolve id = .ok m) ∧
      ∀ m ∈ all, m ∉ visited → ∃ n, p.node m = .ok n ∧ n.isExpandable = false ∧
        ∀ c ∈ n.children, ∃ m' ∈ all, p.resolve c = .ok m' := by
  induction fuel generalizing ids visited with
  | zero => omega
  | succ fuel ih =>
    cases ids with
    | nil =>
      refine ⟨visited, List.Subset.refl _, fun id hi => ?_, fun m hm hn => absurd hm hn⟩
      cases hi
    | cons id rest =>
      rw [pendingFrom] at h
      rw [List.length_cons] at hf
      split at h
      · cases h
      · next m hm =>
        split at h
        · next hv =>
          obtain ⟨all, hs, hr, hc⟩ := ih h (by omega)
          have seen : m ∈ all := hs (List.contains_iff_mem.1 hv)
          exact ⟨all, hs, List.forall_mem_cons.2 ⟨⟨m, seen, hm⟩, hr⟩, hc⟩
        · next hv =>
          replace hv : m ∉ visited := fun hmem => hv (List.contains_iff_mem.2 hmem)
          split at h
          · cases h
          · next n hn =>
            split at h
            · -- a node that is to be replaced would be found
              cases subset_pendingFrom h (List.mem_append_right _ (.head _))
            · next he =>
              have := unseen_cons hn hv
              obtain ⟨all, hs, hr, hc⟩ := ih h (by rw [List.length_append]; omega)
              rw [List.forall_mem_append] at hr
              have new : m ∈ all := hs (.head _)
              refine ⟨all, fun x hx => hs (.tail _ hx),
                List.forall_mem_cons.2 ⟨⟨m, new, hm⟩, hr.2⟩, fun m' hm' hv' => ?_⟩
              by_cases hmm : m' = m
              · exact hmm ▸ ⟨n, hn, Bool.not_eq_true _ ▸ he, hr.1⟩
              · exact hc m' hm' fun hmem => (List.mem_cons.1 hmem).elim hmm hv'

/-- When nothing below the roots is left to replace, all below them is there. -/
theorem settled_of_pending (h : p.pending roots = .ok []) {id : NodeId} (hid : p.Below roots id) :
    p.IsSettled id := by
  obtain ⟨all, -, hr, hc⟩ := closed_of_pendingFrom h (lt_fuel p roots)
  have met : ∃ m ∈ all, p.resolve id = .ok m := by
    induction hid with
    | root hroot => exact hr _ hroot
    | resolved _ hm ih =>
      obtain ⟨m', hmem, hm'⟩ := ih
      cases hm.symm.trans hm'
      exact ⟨_, hmem, resolve_of_resolve hm⟩
    | child _ hm hn hmem ih =>
      obtain ⟨m, hm', hme⟩ := ih
      cases hm.symm.trans hme
      obtain ⟨n', hn', -, hch⟩ := hc _ hm' (List.not_mem_nil)
      cases hn.symm.trans hn'
      exact hch _ hmem
  obtain ⟨m, hm, hr⟩ := met
  obtain ⟨n, hn, he, -⟩ := hc m hm List.not_mem_nil
  exact ⟨m, n, hr, hn, he⟩

/-! ### Plans that were made -/

theorem pending_of_expandIn {rounds : Nat} {p q : Plan} (h : expandIn roots rounds p = .ok q) :
    q.pending roots = .ok [] := by
  induction rounds generalizing p with
  | zero =>
    unfold expandIn at h
    split at h
    · cases h
    · next hp =>
      cases h
      exact hp
    · cases h
  | succ rounds ih =>
    unfold expandIn at h
    split at h
    · cases h
    · next hp =>
      cases h
      exact hp
    · dsimp only at h
      split at h
      · cases h
      · exact ih h

/-- The struct layouts do not matter to the search. -/
theorem pendingFrom_structs (structs : OrderedMap String (List Member)) (fuel : Nat)
    (ids visited pending : List NodeId) :
    pendingFrom { p with structs := structs } fuel ids visited pending =
      pendingFrom p fuel ids visited pending := by
  induction fuel generalizing ids visited pending with
  | zero => cases ids <;> rfl
  | succ fuel ih =>
    cases ids with
    | nil => rfl
    | cons id rest =>
      simp only [pendingFrom, ih]
      rfl

/-- In a plan that was made nothing below the roots is left to replace. -/
theorem pending_of_make {host : Host} {g : Graph} {options : BuildOptions} {p : Plan}
    (h : make g options roots host = .ok p) : p.pending roots = .ok [] := by
  unfold make expand at h
  split at h
  · cases h
  · next q he =>
    rw [← pending_of_expandIn he]
    unfold collectStructs at h
    dsimp only at h
    split at h
    · cases h
    · cases h
      exact pendingFrom_structs _ _ _ _ _

/-! ### What replacing nodes keeps to -/

/-- A node that was replaced stands for what was added. -/
theorem of_replaceNode {id : NodeId} {q : Plan} (h : p.replaceNode id = .ok q) :
    ∃ target p', p.addExpansion id = (.ok target, p') ∧
      q = { p' with expansions := p'.expansions.put id target } := by
  unfold replaceNode at h
  split at h
  · next target p' ha =>
    cases h
    exact ⟨target, p', ha, rfl⟩
  · cases h

/-- What a node stands for changes neither the settings nor the host. -/
theorem addExpansion_settings (p : Plan) (id : NodeId) :
    (p.addExpansion id).2.options = p.options ∧ (p.addExpansion id).2.host = p.host := by
  unfold addExpansion
  split <;> exact ⟨rfl, rfl⟩

section Keeps

variable {P : Plan → Prop} {q : Plan}

/-- What replacing a node keeps to, all of them do. -/
theorem replaceNodes_keeps
    (expand : ∀ {p q id target}, P p → p.addExpansion id = (.ok target, q) → P q)
    (expansions : ∀ {p : Plan} m, P p → P { p with expansions := m }) {ids : List NodeId}
    (h : p.replaceNodes ids = .ok q) (hp : P p) : P q := by
  induction ids generalizing p with
  | nil =>
    cases h
    exact hp
  | cons id rest ih =>
    rw [replaceNodes] at h
    split at h
    · cases h
    · next p' hr =>
      obtain ⟨target, q', ha, rfl⟩ := of_replaceNode hr
      exact ih h (expansions _ (expand hp ha))

theorem expandIn_keeps
    (expand : ∀ {p q id target}, P p → p.addExpansion id = (.ok target, q) → P q)
    (expansions : ∀ {p : Plan} m, P p → P { p with expansions := m }) {rounds : Nat}
    (h : expandIn roots rounds p = .ok q) (hp : P p) : P q := by
  induction rounds generalizing p with
  | zero =>
    unfold expandIn at h
    split at h
    · cases h
    · cases h
      exact hp
    · cases h
  | succ rounds ih =>
    unfold expandIn at h
    split at h
    · cases h
    · cases h
      exact hp
    · dsimp only at h
      split at h
      · cases h
      · next p' hr => exact ih h (replaceNodes_keeps expand expansions hr hp)

/-- What adding the nodes that a node stands for keeps to, and what does not see replacements and
layouts, holds of the plan of a graph. -/
theorem make_keeps
    (expand : ∀ {p q id target}, P p → p.addExpansion id = (.ok target, q) → P q)
    (expansions : ∀ {p : Plan} m, P p → P { p with expansions := m })
    (structs : ∀ {p : Plan} m, P p → P { p with structs := m }) {g : Graph} {options : BuildOptions}
    {host : Host} (h : make g options roots host = .ok p) (start : P (ofGraph g options host)) :
    P p := by
  unfold make at h
  split at h
  · cases h
  · next q hq =>
    unfold collectStructs at h
    dsimp only at h
    split at h
    · cases h
    · cases h
      exact structs _ (expandIn_keeps expand expansions hq start)

end Keeps

/-- A plan that was made has the settings of the build and its host. -/
theorem settings_of_make {g : Graph} {options : BuildOptions} {host : Host}
    (h : make g options roots host = .ok p) : p.options = options ∧ p.host = host := by
  refine make_keeps (P := fun p => p.options = options ∧ p.host = host) ?_ (fun _ hp => hp)
    (fun _ hp => hp) h ⟨rfl, rfl⟩
  intro p q id target hp ha
  have same := p.addExpansion_settings id
  rw [ha] at same
  exact ⟨same.1.trans hp.1, same.2.trans hp.2⟩

end Plan

/-! ### What setups leave alone -/

/-- The setup leaves alone what `f` sees of a graph. -/
def Setup.Keeps {α : Type} (setup : Setup) (f : Graph → α) : Prop := ∀ c g, f (setup c g).2 = f g

section

variable {α : Type} {f : Graph → α} (push : ∀ g n, f (g.push n).2 = f g)

include push

/-- Descriptions leave alone what adding a node and labelling one leave alone. -/
theorem Custom.setup_keeps (label : ∀ g id text, f (Graph.setLabel g id text) = f g) :
    Custom.setup.Keeps f := by
  have added : ∀ (base : Nat) (nodes : List (NodeOf Ref Custom × Option String)) (g : Graph),
      f (addNodes g base nodes) = f g := by
    intro base nodes
    unfold addNodes
    induction nodes with
    | nil => exact fun _ => rfl
    | cons n rest ih =>
      intro g
      obtain ⟨node, text⟩ := n
      rw [List.foldl_cons, ih]
      cases text with
      | none => exact push g _
      | some text => exact (label _ _ text).trans (push g _)
  intro c g
  unfold Custom.setup
  split
  · rfl
  · exact push g _
  · exact added _ _ g

theorem Plan.addExpansion_keeps {p : Plan} (h : p.host.setup.Keeps f) (id : NodeId) :
    f (p.addExpansion id).2.graph = f p.graph := by
  unfold addExpansion
  split
  · -- the nodes of a remapping are appended one by one
    exact (push _ _).trans ((push _ _).trans ((push _ _).trans ((push _ _).trans
      ((push _ _).trans (push _ _)))))
  · exact h _ _
  · rfl
  · rfl

end

/-- What the setup of the host leaves alone is as it was in a plan that was made. -/
theorem Plan.make_graph {α : Type} {f : Graph → α} (push : ∀ g n, f (g.push n).2 = f g) {g : Graph}
    {options : BuildOptions} {roots : List NodeId} {host : Host} {p : Plan}
    (h : make g options roots host = .ok p) (hs : host.setup.Keeps f) : f p.graph = f g := by
  have kept : p.host = host ∧ f p.graph = f g := by
    refine make_keeps (P := fun p => p.host = host ∧ f p.graph = f g) ?_ (fun _ hp => hp)
      (fun _ hp => hp) h ⟨rfl, rfl⟩
    intro p q id target hp ha
    have same := (p.addExpansion_settings id).2
    have graph := addExpansion_keeps push (hp.1 ▸ hs) id
    rw [ha] at same graph
    exact ⟨same.trans hp.1, graph.trans hp.2⟩
  exact kept.2

end ShaderGraph
