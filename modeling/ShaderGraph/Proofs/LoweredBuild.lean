import ShaderGraph.Proofs.Lowered
import ShaderGraph.Proofs.OutlookBuild

/-!
# Builds of documents

In a graph that a document is lowered to nodes refer to earlier ones. To replace a remap keeps that
up to the place: the nodes that take part in the arithmetic stand at the end, but they can be given
levels such that every node is above all that it refers to (`Plan.Leveled`). A level below the
nodes of a document leaves room for them.

So when a plan is made, all that is looked up is there (`Plan.make_of_ordered`), evaluation of the
plan never comes back, and a build of the graph ends without a report of a cycle or of a node that
is missing (`lower_sound`).
-/

namespace ShaderGraph

open Relation

/-- Nodes refer to earlier ones, and all are plain. -/
structure Graph.Ordered (g : Graph) : Prop where
  back : ∀ {i n}, g.get? i = some n → ∀ c ∈ n.children, c.index < i.index
  plain : ∀ {i n}, g.get? i = some n → n.isPlain = true

namespace Plan

variable {p q : Plan} {level : NodeId → Nat} {roots : List NodeId}

/-- A node is there and of some level at most. -/
def IsAt (p : Plan) (level : NodeId → Nat) (bound : Nat) (id : NodeId) : Prop :=
  id.index < p.graph.size ∧ level id ≤ bound

/-- Every node is above all that it refers to, and what takes the place of a node is not above
it. -/
structure Leveled (p : Plan) (level : NodeId → Nat) : Prop where
  above : ∀ {id n}, p.graph.get? id = some n → ∀ c ∈ n.children,
    c.index < p.graph.size ∧ level c < level id
  plain : ∀ {id n}, p.graph.get? id = some n → n.isPlain = true
  /-- Below what is to be replaced there is room for what takes its place. -/
  roomy : ∀ {id n}, p.graph.get? id = some n → n.isExpandable = true →
    ∀ c ∈ n.children, level c + 4 ≤ level id
  replaced : ∀ {id t}, p.expansions.get? id = some t → 0 < p.options.maxDepth ∧
    (∃ n, p.graph.get? id = some n ∧ n.isExpandable = true) ∧
      (∃ n, p.graph.get? t = some n ∧ n.isExpandable = false) ∧ level t ≤ level id

/-! ### Looking up -/

theorem follow_of_some {expansions : OrderedMap NodeId NodeId} {id next : NodeId} {fuel : Nat}
    (h : expansions.get? id = some next) :
    follow expansions (fuel + 1) id = follow expansions fuel next := by
  conv => lhs; unfold follow
  rw [h]

/-- What is built in the place of a node that is there is there as well. -/
theorem Leveled.resolve (h : p.Leveled level) {id : NodeId} {bound : Nat}
    (hid : p.IsAt level bound id) : ∃ m, p.resolve id = .ok m ∧ p.IsAt level bound m := by
  cases he : p.expansions.get? id with
  | none => exact ⟨id, resolve_of_get?_eq_none he, hid⟩
  | some t =>
    obtain ⟨depth, -, ⟨n, hn, hx⟩, hle⟩ := h.replaced he
    -- what takes the place of a node is not replaced itself
    have last : p.expansions.get? t = none := by
      cases ht : p.expansions.get? t with
      | none => rfl
      | some t' =>
        obtain ⟨-, ⟨n', hn', hx'⟩, -⟩ := h.replaced ht
        cases hn.symm.trans hn'
        rw [hx] at hx'
        cases hx'
    have size : 0 < p.expansions.size := by
      rw [OrderedMap.size, List.length_pos_iff_exists_mem]
      exact ⟨_, OrderedMap.mem_of_find? he⟩
    obtain ⟨fuel, hf⟩ := Nat.exists_eq_succ_of_ne_zero (Nat.ne_of_gt (Nat.lt_min.2 ⟨depth, size⟩))
    refine ⟨t, ?_, Graph.lt_size_of_get? hn, hle.trans hid.2⟩
    have ends : follow p.expansions fuel t = some t := by
      unfold follow
      rw [last]
    unfold Plan.resolve
    rw [hf, follow_of_some he, ends]

theorem node_of_lt {id : NodeId} (h : id.index < p.graph.size) : ∃ n, p.node id = .ok n := by
  obtain ⟨n, hn⟩ := Graph.exists_get? h
  refine ⟨n, ?_⟩
  unfold node
  rw [hn]

/-- A node that is still to be replaced. -/
def IsPending (p : Plan) (id : NodeId) : Prop :=
  ∃ n, p.graph.get? id = some n ∧ n.isExpandable = true

/-- The search for nodes to be replaced ends well. -/
theorem Leveled.pendingFrom (h : p.Leveled level) {fuel : Nat} {ids visited pending : List NodeId}
    (hids : ∀ id ∈ ids, id.index < p.graph.size) (hp : ∀ id ∈ pending, p.IsPending id) :
    ∃ found, p.pendingFrom fuel ids visited pending = .ok found ∧ ∀ id ∈ found, p.IsPending id := by
  induction fuel generalizing ids visited pending with
  | zero => cases ids <;> exact ⟨pending, rfl, hp⟩
  | succ fuel ih =>
    cases ids with
    | nil => exact ⟨pending, rfl, hp⟩
    | cons id rest =>
      rw [List.forall_mem_cons] at hids
      have at_level : p.IsAt level (level id) id := ⟨hids.1, Nat.le_refl _⟩
      obtain ⟨m, hm, hat⟩ := h.resolve at_level
      obtain ⟨n, hn⟩ := node_of_lt hat.1
      have hg := graph_of_node hn
      rw [Plan.pendingFrom, hm]
      dsimp only
      split
      · exact ih hids.2 hp
      · rw [hn]
        dsimp only
        split
        · next hx =>
          refine ih hids.2 (List.forall_mem_append.2 ⟨hp, ?_⟩)
          exact List.forall_mem_singleton.2 ⟨n, hg, hx⟩
        · exact ih (List.forall_mem_append.2 ⟨fun c hc => (h.above hg c hc).1, hids.2⟩) hp

theorem Leveled.pending (h : p.Leveled level) (hroots : ∀ r ∈ roots, r.index < p.graph.size) :
    ∃ found, p.pending roots = .ok found ∧ ∀ id ∈ found, p.IsPending id :=
  h.pendingFrom hroots fun _ hid => absurd hid List.not_mem_nil

/-! ### Replacing a node -/

/-- The plan with an operator added at the end. -/
def addOp (p : Plan) (op : BinaryOp) (left right : NodeId) : Plan :=
  { p with graph := (p.graph.push (.operator op left right)).2 }

/-- The nodes of a plan stay in another one that has more of them, at their levels. -/
structure Keeps (p q : Plan) (level level' : NodeId → Nat) : Prop where
  nodes : ∀ {id n}, p.graph.get? id = some n → q.graph.get? id = some n
  levels : ∀ {id}, id.index < p.graph.size → level' id = level id
  size : p.graph.size ≤ q.graph.size
  options : q.options = p.options

theorem Keeps.refl (p : Plan) (level : NodeId → Nat) : p.Keeps p level level :=
  ⟨fun h => h, fun _ => rfl, Nat.le_refl _, rfl⟩

theorem Keeps.trans {r : Plan} {level' level'' : NodeId → Nat} (h : p.Keeps q level level')
    (h' : q.Keeps r level' level'') : p.Keeps r level level'' where
  nodes hn := h'.nodes (h.nodes hn)
  levels hi := (h'.levels (Nat.lt_of_lt_of_le hi h.size)).trans (h.levels hi)
  size := h.size.trans h'.size
  options := h'.options.trans h.options

theorem Keeps.isAt {level' : NodeId → Nat} (h : p.Keeps q level level') {bound : Nat} {id : NodeId}
    (hid : p.IsAt level bound id) : q.IsAt level' bound id :=
  ⟨Nat.lt_of_lt_of_le hid.1 h.size, (h.levels hid.1).symm ▸ hid.2⟩

/-- An operator goes right above its operands. -/
theorem Leveled.addOp (h : p.Leveled level) (op : BinaryOp) {left right : NodeId} {bound : Nat}
    (hl : p.IsAt level bound left) (hr : p.IsAt level bound right) :
    ∃ level', (p.addOp op left right).Leveled level' ∧
      p.Keeps (p.addOp op left right) level level' ∧
      (p.addOp op left right).IsAt level' (bound + 1) ⟨p.graph.size⟩ ∧
      (p.addOp op left right).graph.get? ⟨p.graph.size⟩ = some (.operator op left right) := by
  let level' (id : NodeId) := if id.index = p.graph.size then bound + 1 else level id
  have get : ∀ id, (p.addOp op left right).graph.get? id =
      if id.index = p.graph.size then some (.operator op left right) else p.graph.get? id :=
    Graph.get?_push p.graph _
  have new : level' ⟨p.graph.size⟩ = bound + 1 := if_pos rfl
  have old : ∀ {id : NodeId}, id.index < p.graph.size → level' id = level id :=
    fun hid => if_neg (Nat.ne_of_lt hid)
  have keeps : p.Keeps (p.addOp op left right) level level' := by
    refine ⟨fun {id n} hn => ?_, old, ?_, rfl⟩
    · rw [get, if_neg (Nat.ne_of_lt (Graph.lt_size_of_get? hn))]
      exact hn
    · exact Nat.le_of_lt (Nat.lt_of_lt_of_eq (Nat.lt_succ_self _) (Graph.size_push _ _).symm)
  refine ⟨level', ⟨fun {id n} hn => ?_, fun {id n} hn => ?_, fun {id n} hn hx => ?_,
    fun {id t} he => ?_⟩, keeps, ⟨?_, Nat.le_of_eq new⟩, ?_⟩
  · rw [get] at hn
    split at hn
    · next hid =>
      cases hn
      have eq : level' id = bound + 1 := if_pos hid
      rw [eq]
      have below : ∀ {c : NodeId}, p.IsAt level bound c →
          c.index < (p.addOp op left right).graph.size ∧ level' c < bound + 1 :=
        fun hc => ⟨(keeps.isAt hc).1, Nat.lt_succ_of_le (keeps.isAt hc).2⟩
      exact List.forall_mem_cons.2 ⟨below hl, List.forall_mem_singleton.2 (below hr)⟩
    · rw [old (Graph.lt_size_of_get? hn)]
      intro c hc
      obtain ⟨present, lt⟩ := h.above hn c hc
      rw [old present]
      exact ⟨Nat.lt_of_lt_of_le present keeps.size, lt⟩
  · rw [get] at hn
    split at hn
    · cases hn
      rfl
    · exact h.plain hn
  · rw [get] at hn
    split at hn
    · cases hn
      cases hx
    · rw [old (Graph.lt_size_of_get? hn)]
      intro c hc
      rw [old (h.above hn c hc).1]
      exact h.roomy hn hx c hc
  · obtain ⟨depth, ⟨n, hn, hx⟩, ⟨n', hn', hx'⟩, hle⟩ := h.replaced he
    refine ⟨depth, ⟨n, keeps.nodes hn, hx⟩, ⟨n', keeps.nodes hn', hx'⟩, ?_⟩
    rw [old (Graph.lt_size_of_get? hn), old (Graph.lt_size_of_get? hn')]
    exact hle
  · exact Nat.lt_of_lt_of_eq (Nat.lt_succ_self _) (Graph.size_push _ _).symm
  · rw [get, if_pos rfl]

theorem IsAt.mono {bound bound' : Nat} {id : NodeId} (h : p.IsAt level bound id)
    (hb : bound ≤ bound') : p.IsAt level bound' id := ⟨h.1, h.2.trans hb⟩

theorem checkTarget_of_get? {g : Graph} {id target : NodeId} {n : Node} (h : target ≠ id)
    (hn : g.get? target = some n) : checkTarget g id target = .ok target := by
  unfold checkTarget
  rw [if_neg h, hn]
  rfl

/-- The arithmetic of a remap fits between the remap and what it refers to. -/
theorem Leveled.remap (h : p.Leveled level) {id node inLow inHigh outLow outHigh : NodeId}
    (hn : p.graph.get? id = some (.remap node inLow inHigh outLow outHigh)) :
    ∃ q level' target, p.addExpansion id = (.ok target, q) ∧ q.Leveled level' ∧
      p.Keeps q level level' ∧ q.expansions = p.expansions ∧
        (∃ n, q.graph.get? target = some n ∧ n.isExpandable = false) ∧
          level' target ≤ level id := by
  obtain ⟨k, hk⟩ : ∃ k, level id = k + 4 :=
    ⟨level id - 4, (Nat.sub_add_cancel (Nat.le_of_add_left_le (h.roomy hn rfl node (.head _)))).symm⟩
  have operands : ∀ c ∈ [node, inLow, inHigh, outLow, outHigh], p.IsAt level k c := by
    intro c hc
    have room := h.roomy hn rfl c hc
    exact ⟨(h.above hn c hc).1, by omega⟩
  simp only [List.forall_mem_cons] at operands
  obtain ⟨hNode, hInLow, hInHigh, hOutLow, hOutHigh, -⟩ := operands
  -- each operator goes above its operands, three of them one above the other
  obtain ⟨l₁, h₁, k₁, offset, -⟩ := h.addOp .sub hNode hInLow
  obtain ⟨l₂, h₂, k₂, inRange, -⟩ := h₁.addOp .sub (k₁.isAt hInHigh) (k₁.isAt hInLow)
  obtain ⟨l₃, h₃, k₃, ratio, -⟩ := h₂.addOp .div (k₂.isAt offset) inRange
  have k₀₃ := (k₁.trans k₂).trans k₃
  obtain ⟨l₄, h₄, k₄, outRange, -⟩ := h₃.addOp .sub (k₀₃.isAt hOutHigh) (k₀₃.isAt hOutLow)
  obtain ⟨l₅, h₅, k₅, scaled, -⟩ := h₄.addOp .mul (k₄.isAt ratio) (outRange.mono (Nat.le_succ _))
  have k₀₅ := (k₀₃.trans k₄).trans k₅
  have low := (k₀₅.isAt hOutLow).mono (Nat.le_add_right k 3)
  obtain ⟨l₆, h₆, k₆, target, hTarget⟩ := h₅.addOp .add scaled low
  refine ⟨_, l₆, _, ?_, h₆, k₀₅.trans k₆, rfl, ⟨_, hTarget, rfl⟩, ?_⟩
  · unfold addExpansion
    rw [hn]
    refine Prod.ext (checkTarget_of_get? ?_ hTarget) rfl
    rintro rfl
    exact Nat.not_lt_of_le k₀₅.size (Graph.lt_size_of_get? hn)
  · rw [hk]
    exact target.2

/-- A node that is still to be replaced is a remap, and that is replaced. -/
theorem Leveled.replaceNode (h : p.Leveled level) (hd : 0 < p.options.maxDepth) {id : NodeId}
    (hid : p.IsPending id) :
    ∃ q level', p.replaceNode id = .ok q ∧ q.Leveled level' ∧ p.Keeps q level level' := by
  obtain ⟨n, hn, hx⟩ := hid
  have lt := Graph.lt_size_of_get? hn
  have plain := h.plain hn
  obtain ⟨node, inLow, inHigh, outLow, outHigh, rfl⟩ :
      ∃ node inLow inHigh outLow outHigh, n = .remap node inLow inHigh outLow outHigh := by
    cases n with
    | remap node inLow inHigh outLow outHigh => exact ⟨node, inLow, inHigh, outLow, outHigh, rfl⟩
    | custom => cases plain
    | _ => cases hx
  obtain ⟨q, level', target, ha, hq, keeps, he, ⟨m, hm, hmx⟩, hle⟩ := h.remap hn
  refine ⟨{ q with expansions := q.expansions.put id target }, level', ?_,
    ⟨hq.above, hq.plain, hq.roomy, fun {id' t} hg => ?_⟩,
    ⟨keeps.nodes, keeps.levels, keeps.size, keeps.options⟩⟩
  · unfold Plan.replaceNode
    rw [ha]
  · rcases OrderedMap.get?_of_put hg with ⟨rfl, rfl⟩ | ⟨-, hg⟩
    · refine ⟨keeps.options ▸ hd, ⟨_, keeps.nodes hn, hx⟩, ⟨m, hm, hmx⟩, ?_⟩
      rw [keeps.levels lt]
      exact hle
    · exact hq.replaced hg

theorem Leveled.replaceNodes (h : p.Leveled level) (hd : 0 < p.options.maxDepth)
    {ids : List NodeId} (hids : ∀ id ∈ ids, p.IsPending id) :
    ∃ q level', p.replaceNodes ids = .ok q ∧ q.Leveled level' ∧ p.Keeps q level level' := by
  induction ids generalizing p level with
  | nil => exact ⟨p, level, rfl, h, .refl p level⟩
  | cons id rest ih =>
    rw [List.forall_mem_cons] at hids
    obtain ⟨p', level', hp, h', keeps⟩ := h.replaceNode hd hids.1
    have pending : ∀ id ∈ rest, p'.IsPending id := by
      intro id' hid'
      obtain ⟨n, hn, hx⟩ := hids.2 id' hid'
      exact ⟨n, keeps.nodes hn, hx⟩
    obtain ⟨q, level'', hq, h'', keeps'⟩ := ih h' (keeps.options ▸ hd) pending
    refine ⟨q, level'', ?_, h'', keeps.trans keeps'⟩
    rw [Plan.replaceNodes, hp]
    exact hq

/-! ### Making a plan -/

/-- Replacing ends well, or the rounds that are allowed do not suffice. -/
theorem Leveled.expandIn (h : p.Leveled level) {rounds : Nat} (hr : rounds ≤ p.options.maxDepth)
    (hroots : ∀ r ∈ roots, r.index < p.graph.size) :
    match expandIn roots rounds p with
    | .ok q => ∃ level', q.Leveled level'
    | .error e => ∃ n, e.cause = .graph (.rounds n) := by
  induction rounds generalizing p level with
  | zero =>
    obtain ⟨found, hf, -⟩ := h.pending hroots
    unfold Plan.expandIn
    rw [hf]
    cases found with
    | nil => exact ⟨level, h⟩
    | cons => exact ⟨_, rfl⟩
  | succ rounds ih =>
    obtain ⟨found, hf, hp⟩ := h.pending hroots
    unfold Plan.expandIn
    rw [hf]
    cases found with
    | nil => exact ⟨level, h⟩
    | cons id rest =>
      obtain ⟨q, level', hq, h', keeps⟩ := h.replaceNodes (Nat.zero_lt_of_lt hr) hp
      dsimp only
      rw [hq]
      refine ih h' (keeps.options ▸ Nat.le_of_succ_le hr) fun r hr => ?_
      exact Nat.lt_of_lt_of_le (hroots r hr) keeps.size

/-- Plain nodes bring no layouts. -/
theorem addStructs_of_plain {words : List String} {nodes : List Node}
    {structs : OrderedMap String (List Member)} (h : ∀ n ∈ nodes, n.isPlain = true) :
    addStructs words nodes structs = .ok structs := by
  induction nodes with
  | nil => rfl
  | cons n rest ih =>
    rw [List.forall_mem_cons] at h
    cases n with
    | structType => cases h.1
    | _ => exact ih h.2

theorem Leveled.nodes_plain (h : p.Leveled level) :
    ∀ n ∈ p.graph.entries.toList.map Entry.node, NodeOf.isPlain n = true := by
  intro n hn
  obtain ⟨e, he, rfl⟩ := List.mem_map.1 hn
  obtain ⟨i, hi⟩ := List.mem_iff_getElem?.1 he
  have get : p.graph.get? ⟨i⟩ = some e.node := by
    unfold Graph.get?
    rw [← Array.getElem?_toList, hi]
    rfl
  exact h.plain get

/-- Nodes that refer to earlier ones can be given levels with room in between. -/
theorem leveled_of_ordered {g : Graph} (h : g.Ordered) (options : BuildOptions) (host : Host) :
    (ofGraph g options host).Leveled fun id => 4 * id.index where
  above hn c hc := by
    have lt := h.back hn c hc
    exact ⟨lt.trans (Graph.lt_size_of_get? hn), by omega⟩
  plain := h.plain
  roomy hn _ c hc := by
    have lt := h.back hn c hc
    omega
  replaced he := nomatch he

/-- A plan of a graph in which nodes refer to earlier ones is leveled as well and has no layouts. At
most the rounds that are allowed do not suffice. -/
theorem make_of_ordered {g : Graph} (h : g.Ordered) (options : BuildOptions) (host : Host)
    (hroots : ∀ r ∈ roots, r.index < g.size) :
    match make g options roots host with
    | .ok p => (∃ level, p.Leveled level) ∧ p.structs = .empty
    | .error e => ∃ n, e.cause = .graph (.rounds n) := by
  have expanded := (leveled_of_ordered h options host).expandIn (Nat.le_refl _) hroots
  unfold make expand
  cases he : Plan.expandIn roots (ofGraph g options host).options.maxDepth
      (ofGraph g options host) with
  | error e =>
    rw [he] at expanded
    exact expanded
  | ok q =>
    rw [he] at expanded
    obtain ⟨level, hq⟩ := expanded
    unfold collectStructs
    dsimp only
    rw [addStructs_of_plain hq.nodes_plain]
    exact ⟨⟨level, hq.above, hq.plain, hq.roomy, hq.replaced⟩, rfl⟩

/-! ### Running a plan -/

/-- Where every node is above what it refers to, none refers to itself. -/
theorem Leveled.acyclic (h : p.Leveled level) : p.Acyclic := by
  have lower : ∀ a b, TransGen p.Refers a b → level b < level a := by
    have one : ∀ a b, p.Refers a b → level b < level a := by
      rintro a b ⟨n, c, hn, hc, hm⟩
      obtain ⟨present, lt⟩ := h.above (graph_of_node hn) c hc
      have at_level : p.IsAt level (level c) c := ⟨present, Nat.le_refl _⟩
      obtain ⟨m, hm', hat⟩ := h.resolve at_level
      cases hm.symm.trans hm'
      exact Nat.lt_of_le_of_lt hat.2 lt
    intro a b hab
    induction hab with
    | single hr => exact one _ _ hr
    | tail _ hr ih => exact (one _ _ hr).trans ih
  exact fun id hid => Nat.lt_irrefl _ (lower id id hid)

theorem Leveled.not_context (h : p.Leveled level) (id inner : NodeId)
    (values : List (String × NodeId)) : p.node id ≠ .ok (.context inner values) :=
  fun hn => nomatch h.plain (graph_of_node hn)

/-- No cycle is reported in such a plan. -/
theorem Leveled.not_justified (h : p.Leveled level) {c : Cause} (hc : c.isCycle = true) :
    ¬p.Justified roots c := by
  intro justified
  unfold Cause.isCycle at hc
  split at hc
  · obtain ⟨σ, τ, hσ, hg, hn, hn'⟩ := justified
    cases eq_of_flat h.not_context hσ (hσ.trans hg.to_reflTransGen) (hn.trans hn'.symm)
    exact h.acyclic.not_recurs σ hg
  · obtain ⟨σ, -, hg⟩ := justified
    exact h.acyclic.not_recurs σ hg
  · cases hc

end Plan

open Build

variable {g : Graph} {request : BuildRequest} {options : BuildOptions}

/-- Whether something is refused because of a cycle or of a reference that leads nowhere. -/
def Cause.isBroken (c : Cause) : Bool := c.isCycle || c.isMissing

theorem Cause.exists_of_isBroken {c : Cause} (h : c.isBroken = true) : ∃ e, c = .graph e := by
  cases c with
  | graph e => exact ⟨e, rfl⟩
  | type | scope | dialect | layout | custom => cases h

/-- A run of a plan that is leveled and settled below its roots finds all that it looks up, and
never comes back. -/
theorem run_not_broken {p : Plan} {level : NodeId → Nat} {rs : List (Stage × NodeId)}
    (hp : p.Leveled level) (settled : ∀ id, p.Below (rs.map Prod.snd) id → p.IsSettled id)
    {e : BuildError} (h : run p rs = .error (.refused e)) : e.cause.isBroken = false := by
  refine Bool.or_eq_false_iff.2 ⟨?_, ?_⟩
  · by_contra hc
    rw [Bool.not_eq_false] at hc
    exact hp.not_justified hc (run_justified h)
  · by_contra hc
    rw [Bool.not_eq_false] at hc
    -- only the loop of a loop index may be missing, and there are no loop indices
    have ends := run_ends_within settled
    rw [h] at ends
    obtain ⟨id, loop, k, err, -, hn, -⟩ := ends (Cause.isUnmet_of_isMissing hc)
    exact nomatch hp.plain (Plan.graph_of_node hn)

/-- The build of a graph in which nodes refer to earlier ones ends, and nothing is refused because of
a cycle or of a missing node. -/
theorem Graph.Ordered.build (hg : g.Ordered) (options : BuildOptions) (host : Host)
    (hr : ∀ r ∈ request.roots.map Prod.snd, r.index < g.size) :
    build g request options host ≠ .error .exhausted ∧
      ∀ e, build g request options host = .error (.refused e) → e.cause.isBroken = false := by
  have made := Plan.make_of_ordered hg options host hr
  refine ⟨fun h => ?_, fun e h => ?_⟩
  · unfold ShaderGraph.build at h
    dsimp only at h
    split at h
    · cases h
    · split at h
      · cases h
      · next p hm =>
        rw [hm] at made
        obtain ⟨⟨level, hp⟩, hs⟩ := made
        have tellable : p.Tellable (request.roots.map Prod.snd) := .inl hp.acyclic
        have ends := run_ends (Plan.layoutsFounded_of_empty hs) tellable
        split at h
        · next f hf =>
          cases h
          rw [hf] at ends
          exact ends
        · split at h <;> cases h
  · by_contra hc
    rw [Bool.not_eq_false] at hc
    obtain ⟨err, he⟩ := Cause.exists_of_isBroken hc
    rcases refused_of_build h he with rfl | hm | ⟨p, hm, hrun⟩
    · rw [he] at hc
      cases hc
    · rw [hm] at made
      obtain ⟨n, hn⟩ := made
      rw [hn] at hc
      cases hc
    · rw [hm] at made
      obtain ⟨⟨level, hp⟩, -⟩ := made
      rw [run_not_broken hp (fun _ => Plan.settled_of_make hm) hrun] at hc
      cases hc

/-! ### Documents -/

variable {d : Document} {l : Lowered}

theorem Document.IsLoweredTo.roots_present {became : String → NodeId} (h : d.IsLoweredTo l became) :
    ∀ r ∈ l.request.roots.map Prod.snd, r.index < l.graph.size := by
  intro r hr
  obtain ⟨⟨stage, _⟩, hmem, rfl⟩ := List.mem_map.1 hr
  obtain ⟨_, -, hs⟩ := List.mem_filterMap.1 hmem
  obtain ⟨i, hi, he⟩ := Option.map_eq_some_iff.1 hs
  cases he
  rw [h.roots stage] at hi
  obtain ⟨id, ho, rfl⟩ := Option.map_eq_some_iff.1 hi
  obtain ⟨n, hn⟩ := h.present (.output ho)
  exact Graph.lt_size_of_get? hn

/-- To lower a document, as many steps down as it has nodes are enough. What comes out is the graph
of the document: each node that an output is computed from became one node, under its name, however
many nodes refer to it, and these refer to each other as the document says. The build of it ends,
whatever the host brings, and it is not refused because of a missing node or a cycle. -/
theorem lower_sound (d : Document) :
    (∀ k id, d.lowerNode (d.nodes.length + k) [] id = d.lowerNode d.nodes.length [] id) ∧
      ∀ l, d.lower = .ok l →
        (d.nodes.map DocumentNode.id).Nodup ∧ (∃ became, d.IsLoweredTo l became) ∧
          l.request.roots ≠ [] ∧
            ∀ host, build l.graph l.request l.options host ≠ .error .exhausted ∧
              ∀ e, build l.graph l.request l.options host = .error (.refused e) →
                e.cause.isCycle = false ∧ e.cause.isMissing = false := by
  refine ⟨d.lowerNode_enough, fun l h => ?_⟩
  obtain ⟨known, sound, roots, nodup, some⟩ := Document.sound_of_lower h
  have lowered := Document.isLoweredTo sound roots l.options
  have ordered : l.graph.Ordered := ⟨sound.back, sound.plain⟩
  refine ⟨nodup, ⟨_, lowered⟩, some, fun host => ?_⟩
  obtain ⟨ends, broken⟩ := ordered.build l.options host lowered.roots_present
  exact ⟨ends, fun e he => Bool.or_eq_false_iff.1 (broken e he)⟩

/-- A time is remapped and added to what comes out; a texture has no coordinates; one node is not
used. -/
def pulse : Document where
  version := Document.standardVersion
  metadata := none
  nodes := [⟨"time", "Uniform", .empty⟩, ⟨"ramp", "Remap", .empty⟩,
    ⟨"image", "Texture", .ofList [("name", .string "albedo")]⟩,
    ⟨"shade", "Operator", .ofList [("op", .string "*")]⟩, ⟨"unused", "Builtin", .empty⟩,
    ⟨"lit", "Operator", .ofList [("op", .string "+")]⟩,
    ⟨"place", "Uniform", .ofList [("type", .string "vec4")]⟩]
  connections := [⟨"", ⟨"time", "out"⟩, ⟨"ramp", "value"⟩⟩, ⟨"", ⟨"ramp", "out"⟩, ⟨"shade", "a"⟩⟩,
    ⟨"", ⟨"image", "out"⟩, ⟨"shade", "b"⟩⟩, ⟨"", ⟨"shade", "out"⟩, ⟨"lit", "a"⟩⟩,
    ⟨"", ⟨"time", "out"⟩, ⟨"lit", "b"⟩⟩]
  outputs := .ofList [("vertex", "place"), ("fragment", "lit")]
  options := none

/-- Six nodes of `pulse` are lowered; seven more are helpers. -/
theorem lower_pulse : ∃ l, pulse.lower = .ok l ∧ l.graph.size = 13 ∧
    l.graph.mark? ⟨0⟩ = some "time" := by
  have made : pulse.lower.toOption.map (fun l => (l.graph.size, l.graph.mark? ⟨0⟩)) =
      some (13, some "time") := by
    decide +kernel
  cases h : pulse.lower with
  | error e =>
    rw [h] at made
    cases made
  | ok l =>
    rw [h] at made
    injection made with made
    injection made with size mark
    exact ⟨l, rfl, size, mark⟩

theorem pulse_lowered : ∃ l, pulse.lower = .ok l ∧ l.graph.size = 13 ∧
    l.graph.mark? ⟨0⟩ = some "time" ∧ (∃ became, pulse.IsLoweredTo l became) ∧
      ∀ e, build l.graph l.request l.options = .error (.refused e) →
        e.cause.isCycle = false ∧ e.cause.isMissing = false := by
  obtain ⟨l, hl, size, mark⟩ := lower_pulse
  obtain ⟨-, lowered, -, sound⟩ := (lower_sound pulse).2 l hl
  exact ⟨l, hl, size, mark, lowered, (sound .plain).2⟩

end ShaderGraph
