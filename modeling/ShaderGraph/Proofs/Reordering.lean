import ShaderGraph.Proofs.LoweredBuild

/-!
# Documents in another order

A document is a list of nodes, a list of connections and a map of outputs. Lowering looks things up
in them and never goes through them in their own order: the way through a document follows the names
of the stages and, at a node, the order of its inputs.

* `Document.Reorders`: two documents that list the same in different orders.
* `Document.lowerNode_congr`: a node is lowered by what is found under names.
* `Document.lowerOutputs_sorted`: the roots are added in the order of the names of the outputs.
* `lower_reordered`: both documents are lowered, and to the same, or neither is.
-/

namespace ShaderGraph

/-! ### Looking up -/

/-- Where the keys of the items are different, what is found by its key is the item with that key. -/
theorem find?_key_iff {α κ : Type} [DecidableEq κ] {key : α → κ} {items : List α}
    (hk : (items.map key).Nodup) {k : κ} {a : α} :
    (items.find? fun a => key a = k) = some a ↔ a ∈ items ∧ key a = k := by
  constructor
  · intro found
    exact ⟨List.mem_of_find?_eq_some found, by simpa using List.find?_some found⟩
  · rintro ⟨ha, rfl⟩
    obtain ⟨b, found⟩ : ∃ b, (items.find? fun b => key b = key a) = some b :=
      Option.isSome_iff_exists.1 (List.find?_isSome.2 ⟨a, ha, by simp⟩)
    have same : key b = key a := by simpa using List.find?_some found
    rw [found, List.inj_on_of_nodup_map hk (List.mem_of_find?_eq_some found) ha same]

/-- What is found by its key does not depend on the order of the items. -/
theorem find?_key_of_perm {α κ : Type} [DecidableEq κ] {key : α → κ} {items items' : List α}
    (h : items.Perm items') (hk : (items.map key).Nodup) (k : κ) :
    (items.find? fun a => key a = k) = items'.find? fun a => key a = k := by
  have hk' : (items'.map key).Nodup := (h.map key).nodup_iff.1 hk
  refine Option.ext fun a => ?_
  rw [find?_key_iff hk, find?_key_iff hk', h.mem_iff]

/-- A look-up in a map does not depend on the order of the entries. -/
theorem OrderedMap.get?_of_perm {κ α : Type} [DecidableEq κ] {m m' : OrderedMap κ α}
    (h : m.entries.Perm m'.entries) (hk : m.keys.Nodup) (k : κ) : m.get? k = m'.get? k := by
  have hk' : m'.keys.Nodup := (h.map Prod.fst).nodup_iff.1 hk
  cases found : m'.get? k with
  | some a => exact get?_of_mem hk (h.mem_iff.2 (mem_of_find? found))
  | none =>
    cases found' : m.get? k with
    | none => rfl
    | some a =>
      have := get?_of_mem hk' (h.mem_iff.1 (mem_of_find? found'))
      rw [found] at this
      cases this

namespace Document

variable {d d' : Document}

/-- The second document lists what the first lists, in another order. The outputs are a map: none
of its keys is there twice. -/
structure Reorders (d d' : Document) : Prop where
  nodes : d.nodes.Perm d'.nodes
  connections : d.connections.Perm d'.connections
  outputs : d.outputs.entries.Perm d'.outputs.entries
  keys : d.outputs.keys.Nodup
  options : d.options = d'.options

/-- The same is found under each name of a node and at each input. -/
structure Finds (d d' : Document) : Prop where
  node : ∀ id, d.node? id = d'.node? id
  incoming : ∀ id key, d.incoming? id key = d'.incoming? id key

theorem Reorders.finds (h : d.Reorders d') (hn : (d.nodes.map DocumentNode.id).Nodup)
    (hc : (d.connections.map Connection.target).Nodup) : d.Finds d' where
  node := find?_key_of_perm h.nodes hn
  incoming id key := find?_key_of_perm h.connections hc ⟨id, key⟩

/-! ### Documents that are refused as a whole -/

theorem fault?_eq_none_iff : d.fault? = none ↔
    (d.nodes.map DocumentNode.id).Nodup ∧ d.looseEnds = [] := by
  unfold fault?
  split
  · next nodup => simp [nodup]
  · next twice => simp [twice]

theorem Reorders.looseEnds (h : d.Reorders d') (hf : ∀ id, d.node? id = d'.node? id) :
    d.looseEnds.Perm d'.looseEnds := by
  unfold Document.looseEnds
  simp only [hf]
  exact h.connections.flatMap_right _

/-- In either order the document is without fault, or in neither. -/
theorem Reorders.fault?_eq_none (h : d.Reorders d')
    (hc : (d.connections.map Connection.target).Nodup) :
    d.fault? = none ↔ d'.fault? = none := by
  rw [fault?_eq_none_iff, fault?_eq_none_iff, (h.nodes.map DocumentNode.id).nodup_iff]
  refine and_congr_right fun hn => ?_
  have found := h.finds ((h.nodes.map DocumentNode.id).nodup_iff.2 hn) hc
  rw [← List.length_eq_zero_iff, ← List.length_eq_zero_iff, (h.looseEnds found.node).length_eq]

/-! ### The recursion -/

theorem Finds.input (h : d.Finds d') (below : String → Lower NodeId) (id : String) :
    d.input below id = d'.input below id := by
  funext key
  rw [Document.input, Document.input, h.incoming]

theorem Finds.addNew (h : d.Finds d') (below : String → Lower NodeId) (id : String)
    (n : DocumentNode) : d.addNew below id n = d'.addNew below id n := by
  rw [Document.addNew, Document.addNew, h.input]

/-- A node is lowered by what is found under its name, at its inputs and further up. -/
theorem lowerNode_congr (h : d.Finds d') (fuel : Nat) (path : List String) (id : String) :
    d.lowerNode fuel path id = d'.lowerNode fuel path id := by
  induction fuel generalizing path id with
  | zero => rw [lowerNode_zero, lowerNode_zero, h.node]
  | succ fuel ih =>
    have below : d.lowerNode fuel (id :: path) = d'.lowerNode fuel (id :: path) :=
      funext fun id' => ih (id :: path) id'
    simp only [lowerNode_succ, h.node, below, h.addNew]

/-! ### The outputs -/

/-- Sets the root of a stage. -/
def withRoot (request : BuildRequest) (root : NodeId) : Stage → BuildRequest
  | .vertex => { request with vertex := some root }
  | .fragment => { request with fragment := some root }
  | .compute => { request with compute := some root }

/-- Adds the roots that some entries of the outputs name, one after the other; a name of no stage is
passed over. -/
def lowerEach (d : Document) : List (String × String) → BuildRequest → Lower BuildRequest
  | [], request => return request
  | (name, id) :: rest, request =>
    match Stage.ofName? name with
    | none => d.lowerEach rest request
    | some stage => do
      let root ← Lower.within (.output stage id) (d.lowerNode d.nodes.length [] id)
      d.lowerEach rest (withRoot request root stage)

/-- Adds the root of a stage, if some entries of the outputs name one. -/
def lowerStage (d : Document) (entries : List (String × String)) (stage : Stage)
    (request : BuildRequest) : Lower BuildRequest :=
  match OrderedMap.find? stage.name entries with
  | none => return request
  | some id => do
    let root ← Lower.within (.output stage id) (d.lowerNode d.nodes.length [] id)
    return withRoot request root stage

theorem lowerOutputs_eq (d : Document) :
    d.lowerOutputs = (do
      let request ← d.lowerStage d.outputs.entries .compute ⟨none, none, none⟩
      let request ← d.lowerStage d.outputs.entries .fragment request
      d.lowerStage d.outputs.entries .vertex request) := by
  unfold lowerOutputs lowerOutput lowerStage OrderedMap.get?
  cases OrderedMap.find? Stage.compute.name d.outputs.entries <;>
    cases OrderedMap.find? Stage.fragment.name d.outputs.entries <;>
    cases OrderedMap.find? Stage.vertex.name d.outputs.entries <;>
    simp [withRoot]

section Steps

variable {entries rest : List (String × String)} {name id : String} {stage : Stage}
  {request : BuildRequest}

theorem lowerStage_cons_self : d.lowerStage ((stage.name, id) :: rest) stage request = (do
    let root ← Lower.within (.output stage id) (d.lowerNode d.nodes.length [] id)
    return withRoot request root stage) := by
  rw [lowerStage, OrderedMap.find?, if_pos rfl]

theorem lowerStage_cons_ne (h : stage.name ≠ name) :
    d.lowerStage ((name, id) :: rest) stage request = d.lowerStage rest stage request := by
  rw [lowerStage, OrderedMap.find?, if_neg h, lowerStage]

/-- A stage whose name comes before all that is left adds nothing. -/
theorem lowerStage_past (h : ∀ e ∈ rest, name < e.1) (hle : stage.name ≤ name) :
    d.lowerStage rest stage request = return request := by
  have none : OrderedMap.find? stage.name rest = none := by
    rw [← Option.not_isSome_iff_eq_none, OrderedMap.find?_isSome_iff]
    intro hmem
    obtain ⟨e, he, named⟩ := List.mem_map.1 hmem
    exact String.not_lt.2 hle (named ▸ h e he)
  rw [lowerStage, none]

/-- Going through the entries in the order of their names adds the roots in the order of the names
of the stages. -/
theorem lowerEach_sorted (hs : entries.Pairwise fun a b => a.1 < b.1) :
    d.lowerEach entries request = (do
      let request ← d.lowerStage entries .compute request
      let request ← d.lowerStage entries .fragment request
      d.lowerStage entries .vertex request) := by
  induction entries generalizing request with
  | nil => simp [lowerEach, lowerStage, OrderedMap.find?]
  | cons e rest ih =>
    obtain ⟨name, id⟩ := e
    obtain ⟨front, sorted⟩ := List.pairwise_cons.1 hs
    rw [lowerEach]
    cases named : Stage.ofName? name with
    | none =>
      have apart (stage : Stage) : stage.name ≠ name := by
        simpa using List.find?_eq_none.1 named stage stage.mem_all
      simp only [lowerStage_cons_ne (apart _), ih sorted]
    | some stage =>
      obtain rfl : stage.name = name := by simpa using List.find?_some named
      have other (stage' : Stage) (h : stage'.name ≠ stage.name) (request : BuildRequest) :
          d.lowerStage ((stage.name, id) :: rest) stage' request =
            d.lowerStage rest stage' request :=
        lowerStage_cons_ne h
      have past (stage' : Stage) (h : stage'.name ≤ stage.name) (request : BuildRequest) :
          d.lowerStage rest stage' request = return request :=
        lowerStage_past front h
      cases stage with
      | compute =>
        simp only [ih sorted, lowerStage_cons_self, other .fragment (by decide),
          other .vertex (by decide), past .compute (by decide), pure_bind, bind_assoc]
      | fragment =>
        simp only [ih sorted, lowerStage_cons_self, other .compute (by decide),
          other .vertex (by decide), past .compute (by decide), past .fragment (by decide),
          pure_bind, bind_assoc]
      | vertex =>
        simp only [ih sorted, lowerStage_cons_self, other .compute (by decide),
          other .fragment (by decide), past .compute (by decide), past .fragment (by decide),
          past .vertex (by decide), pure_bind]

end Steps

/-- The roots are added in the order of the names of the outputs, whatever their own order is. -/
theorem lowerOutputs_sorted (d : Document) {entries : List (String × String)}
    (he : entries.Perm d.outputs.entries) (hs : entries.Pairwise fun a b => a.1 < b.1) :
    d.lowerOutputs = d.lowerEach entries ⟨none, none, none⟩ := by
  have keys : (OrderedMap.mk entries).keys.Nodup := by
    refine List.pairwise_map.2 (hs.imp fun {a b} lt same => ?_)
    exact String.lt_irrefl b.1 (same ▸ lt)
  have found (stage : Stage) (request : BuildRequest) :
      d.lowerStage d.outputs.entries stage request = d.lowerStage entries stage request := by
    have := OrderedMap.get?_of_perm (m := ⟨entries⟩) he keys stage.name
    unfold OrderedMap.get? at this
    rw [lowerStage, lowerStage, ← this]
  simp only [lowerOutputs_eq, lowerEach_sorted hs, found]

/-- What the outputs name is lowered alike. -/
theorem Reorders.lowerOutputs (h : d.Reorders d') (hf : d.Finds d') :
    d.lowerOutputs = d'.lowerOutputs := by
  have same (stage : Stage) : d.lowerOutput stage = d'.lowerOutput stage := by
    unfold lowerOutput
    simp only [OrderedMap.get?_of_perm h.outputs h.keys, h.nodes.length_eq, lowerNode_congr hf]
  simp only [Document.lowerOutputs, same]

end Document

/-- The order of the nodes, of the connections and of the outputs does not matter, where no two
connections go into the same input: the document is lowered in one order just if it is in the other,
and to the same graph, the same roots and the same options. -/
theorem lower_reordered {d d' : Document} (h : d.Reorders d')
    (hc : (d.connections.map Connection.target).Nodup) (l : Lowered) :
    d.lower = .ok l ↔ d'.lower = .ok l := by
  cases whole : d.fault? with
  | some f =>
    obtain ⟨f', whole'⟩ : ∃ f', d'.fault? = some f' := by
      refine Option.ne_none_iff_exists'.1 fun none => ?_
      rw [(h.fault?_eq_none hc).2 none] at whole
      cases whole
    rw [Document.lower, Document.lower, whole, whole']
    exact iff_of_false nofun nofun
  | none =>
    have whole' := (h.fault?_eq_none hc).1 whole
    have found := h.finds (Document.fault?_eq_none_iff.1 whole).1 hc
    rw [Document.lower, Document.lower, whole, whole', h.lowerOutputs found, h.options]

/-- A document from its last entries to its first. -/
def Document.backwards (d : Document) : Document :=
  { d with
    nodes := d.nodes.reverse
    connections := d.connections.reverse
    outputs := ⟨d.outputs.entries.reverse⟩ }

theorem Document.reorders_backwards {d : Document} (hk : d.outputs.keys.Nodup) :
    d.Reorders d.backwards where
  nodes := d.nodes.reverse_perm.symm
  connections := d.connections.reverse_perm.symm
  outputs := d.outputs.entries.reverse_perm.symm
  keys := hk
  options := rfl

/-- `pulse` from its last entries to its first becomes the same graph of thirteen nodes. -/
theorem pulse_backwards : pulse.Reorders pulse.backwards ∧
    (pulse.connections.map Connection.target).Nodup ∧
      ∃ l, pulse.lower = .ok l ∧ pulse.backwards.lower = .ok l ∧ l.graph.size = 13 := by
  have reorders : pulse.Reorders pulse.backwards := Document.reorders_backwards (by decide)
  have targets : (pulse.connections.map Connection.target).Nodup := by decide
  obtain ⟨l, lowered, size, -⟩ := lower_pulse
  exact ⟨reorders, targets, l, lowered, (lower_reordered reorders targets l).1 lowered, size⟩

end ShaderGraph
