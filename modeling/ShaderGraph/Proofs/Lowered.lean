import ShaderGraph.Proofs.Drafts

/-!
# What documents are lowered to

The steps of lowering one after the other, from the parameters of a node to the whole document.

* `Lower.addNode_adds`: what is added for a node fits it, where its inputs give what they should.
* `Document.gives_lowerNode`: after a node was lowered the draft is sound and knows the node; what
  was known before is not lowered again.
* `Document.lowerNode_succ`: the recursion is never deeper than there are nodes.
* `Document.IsLoweredTo` is what the graph of a document looks like in the end.
-/

namespace ShaderGraph

namespace Lower

open Draft

variable {d : Document} {path : List String} {s : Draft} {id : String} {n : DocumentNode}

/-! ### Parameters -/

theorem still_param (n : DocumentNode) (key : String) :
    Still (param n key) fun text => n.text? key = some text := by
  unfold param
  split
  · next text h => exact .pure h
  · exact .fail

theorem still_typeParam? (n : DocumentNode) : Still (typeParam? n) fun _ => True := by
  unfold typeParam?
  split
  · exact .pure trivial
  · split
    · exact .pure trivial
    · exact .fail

theorem still_typeParam (n : DocumentNode) : Still (typeParam n) fun _ => True := by
  refine (still_typeParam? n).bind fun t _ => ?_
  split
  · exact .pure trivial
  · exact .fail

theorem still_numbers (key : String) (items : List Json) :
    Still (numbers key items) fun _ => True := by
  induction items with
  | nil => exact .pure trivial
  | cons v rest ih =>
    unfold numbers
    split
    · exact ih.bind fun _ _ => .pure trivial
    · exact .fail

theorem still_valuesParam (n : DocumentNode) (key : String) :
    Still (valuesParam n key) fun _ => True := by
  unfold valuesParam
  split
  · exact .pure trivial
  · exact still_numbers key _
  · split
    · exact .pure trivial
    · exact .fail

theorem still_cadenceParam (n : DocumentNode) : Still (cadenceParam n) fun _ => True := by
  unfold cadenceParam
  split
  · exact .pure trivial
  · dsimp only
    split
    · exact .pure trivial
    · exact .fail

theorem still_interpolationParam (n : DocumentNode) :
    Still (interpolationParam n) fun _ => True := by
  unfold interpolationParam
  split
  · exact .pure trivial
  · split
    · exact .pure trivial
    · exact .fail

theorem still_operatorParam (n : DocumentNode) : Still (operatorParam n) fun _ => True := by
  refine (still_param n "op").bind fun name _ => ?_
  split
  · exact .pure trivial
  · exact .fail

theorem still_methodParam (n : DocumentNode) :
    Still (methodParam n) fun m => (n.text? "method").bind MathMethod.read? = some m := by
  refine (still_param n "method").bind fun name hn => ?_
  split
  · next m hm =>
    refine .pure ?_
    rw [hn]
    exact hm
  · exact .fail

theorem still_builtinParam (n : DocumentNode) : Still (builtinParam n) fun _ => True := by
  refine (still_param n "value").bind fun name _ => ?_
  split
  · exact .pure trivial
  · exact .fail

/-! ### Inputs -/

variable {input : String → Lower (Option NodeId)} {key : String}

/-- A number that an input takes. -/
theorem gives_number (v : Float) (h : d.source? id key = none) :
    Gives d path s (Author.float v) (Stands d id key) := by
  intro hs a s' hr
  obtain ⟨hs', hg, present, mark⟩ := Gives.push (.number v) (fun c hc => nomatch hc) hs a s' hr
  exact ⟨hs', hg, present, mark.trans h.symm⟩

theorem gives_required (h : Gives d path s (input key) (Reads d id key)) :
    Gives d path s (required input key) (Stands d id key) := by
  refine h.bind fun a s' _ ha => ?_
  cases a with
  | some a => exact .pure ha.stands
  | none => exact .fail

theorem gives_operand? (default : Option Float)
    (h : Gives d path s (input key) (Reads d id key)) :
    Gives d path s (operand? n input key default) (Reads d id key) := by
  refine h.bind fun a s' _ ha => ?_
  cases a with
  | some a => exact .pure ha
  | none =>
    dsimp only
    split
    · exact (gives_number _ ha.mark.symm).bind fun a s' _ ha => .pure ha.reads
    · exact .pure ha

theorem gives_operand (default : Option Float)
    (h : Gives d path s (input key) (Reads d id key)) :
    Gives d path s (operand n input key default) (Stands d id key) := by
  refine (gives_operand? default h).bind fun a s' _ ha => ?_
  cases a with
  | some a => exact .pure ha.stands
  | none => exact .fail

/-- What stands for some inputs, in order. -/
theorem filterMap_mark? {keys : List String} {as : List NodeId}
    (h : List.Forall₂ (Stands d id · · s) keys as) :
    (∀ a ∈ as, a.index < s.graph.size) ∧
      as.filterMap s.graph.mark? = keys.filterMap (d.source? id) := by
  induction h with
  | nil => exact ⟨fun a ha => (nomatch ha), rfl⟩
  | cons ha _ ih =>
    refine ⟨List.forall_mem_cons.2 ⟨ha.present, ih.1⟩, ?_⟩
    rw [List.filterMap_cons, List.filterMap_cons, ha.mark, ih.2]

theorem filterMap_mark?_parts {keys : List String} {parts : List (Option NodeId)}
    (h : List.Forall₂ (Reads d id · · s) keys parts) :
    (∀ a ∈ parts.filterMap (fun a => a), a.index < s.graph.size) ∧
      (parts.filterMap fun a => a).filterMap s.graph.mark? = keys.filterMap (d.source? id) := by
  induction h with
  | nil => exact ⟨fun a ha => (nomatch ha), rfl⟩
  | @cons key a keys parts ha _ ih =>
    rw [List.filterMap_cons, List.filterMap_cons (f := d.source? id), ← ha.mark, ← ih.2]
    cases a with
    | none => exact ⟨ih.1, rfl⟩
    | some a => exact ⟨List.forall_mem_cons.2 ⟨ha.present a rfl, ih.1⟩, List.filterMap_cons ..⟩

/-! ### Nodes -/

/-- What is known of the inputs of a node. -/
def Inputs (d : Document) (path : List String) (id : String) (keys : List String)
    (input : String → Lower (Option NodeId)) : Prop :=
  ∀ key ∈ keys, ∀ s, Gives d path s (input key) (Reads d id key)

theorem fits_leaf {node : Node} (hn : node.isPlain = true) (hc : node.children = [])
    (hs : d.sources id = []) : Fits d s id node where
  present c hmem := by
    rw [hc] at hmem
    cases hmem
  plain := hn
  wired := by rw [hc, hs, List.filterMap_nil]

/-- A node with one reference for each of its inputs fits. -/
theorem fits_of_stands {node : Node} {keys : List String} (hn : node.isPlain = true)
    (h : List.Forall₂ (Stands d id · · s) keys node.children)
    (hs : d.sources id = keys.filterMap (d.source? id)) : Fits d s id node where
  present := (filterMap_mark? h).1
  plain := hn
  wired := (filterMap_mark? h).2.trans hs.symm

section Kinds

variable (hin : Inputs d path id n.ports input) (hs : d.sources id = n.ports.filterMap (d.source? id))
include hin hs

theorem addVarying_adds (hp : n.ports = ["node"]) : Adds d path s (addVarying n input) id := by
  rw [hp] at hin hs
  refine .after (gives_required (hin "node" (.head _) s)) fun source s₁ _ h => ?_
  refine .after (.of_still (still_interpolationParam n)) fun i s₂ hg _ => ?_
  exact .push (fits_of_stands rfl (.cons (h.grow hg) .nil) hs)

theorem addVar_adds (hp : n.ports = ["node"]) : Adds d path s (addVar n input) id := by
  rw [hp] at hin hs
  refine .after (gives_required (hin "node" (.head _) s)) fun source s₁ _ h => ?_
  split
  · exact .push (fits_of_stands rfl (.cons h .nil) hs)
  · exact .push (fits_of_stands rfl (.cons h .nil) hs)

theorem addJoin_adds (hp : n.ports = joinInputs) : Adds d path s (addJoin n input) id := by
  rw [hp] at hin hs
  refine .after (Gives.mapM (fun h hg => h.grow hg)
    fun key hk s => gives_operand? none (hin key hk s)) fun parts s₁ _ h => ?_
  have fits : ∀ type s₂, Grows path s₁ s₂ →
      Fits d s₂ id (.join (parts.filterMap fun a => a) type) := by
    intro type s₂ hg
    obtain ⟨present, wired⟩ := filterMap_mark?_parts (h.imp fun _ _ h => h.grow hg)
    exact ⟨present, rfl, wired.trans hs.symm⟩
  dsimp only
  split
  · exact .fail
  · refine .after (.of_still (still_typeParam? n)) fun type s₂ hg _ => ?_
    split
    · exact .push (fits _ s₂ hg)
    · exact .push (fits _ s₂ hg)

theorem addRemap_adds (hp : n.ports = ["value", "inLow", "inHigh", "outLow", "outHigh"]) :
    Adds d path s (addRemap n input) id := by
  rw [hp] at hin hs
  rw [Inputs, List.forall_mem_cons, List.forall_mem_cons, List.forall_mem_cons,
    List.forall_mem_cons, List.forall_mem_singleton] at hin
  obtain ⟨value, inLow, inHigh, outLow, outHigh⟩ := hin
  refine .after (gives_required (value s)) fun v s₁ _ hv => ?_
  refine .after (gives_operand (some 0) (inLow s₁)) fun il s₂ g₂ hil => ?_
  refine .after (gives_operand (some 1) (inHigh s₂)) fun ih s₃ g₃ hih => ?_
  refine .after (gives_operand (some 0) (outLow s₃)) fun ol s₄ g₄ hol => ?_
  refine .after (gives_operand (some 1) (outHigh s₄)) fun oh s₅ g₅ hoh => ?_
  have g₃₅ := g₄.trans g₅
  have g₂₅ := g₃.trans g₃₅
  refine .push (fits_of_stands rfl ?_ hs)
  exact .cons (hv.grow (g₂.trans g₂₅)) <| .cons (hil.grow g₂₅) <| .cons (hih.grow g₃₅) <|
    .cons (hol.grow g₅) <| .cons hoh .nil

end Kinds

/-- The coordinates that a texture without any takes. -/
theorem gives_defaultUv :
    Gives d path s (Author.defaultUv : Lower NodeId) fun a s' => a.index < s'.graph.size := by
  unfold Author.defaultUv
  refine Gives.get ?_
  split
  · next u hu => exact fun hs => Gives.pure (hs.uv hu) hs
  · refine (Gives.push .coordinates fun c hc => nomatch hc).bind fun uv s₁ _ huv => ?_
    have present : ∀ c ∈ NodeOf.children (.varying uv (some "uv") .perspective none : Node),
        c.index < s₁.graph.size := List.forall_mem_singleton.2 huv.1
    refine (Gives.push (.carrier uv) present).bind fun u s₂ _ hu => ?_
    refine (Gives.shareUv hu.1).bind fun _ s₃ hg _ => ?_
    exact .pure (Nat.lt_of_lt_of_le hu.1 hg.size)

theorem addTexture_adds (hin : Inputs d path id n.ports input)
    (hs : d.sources id = n.ports.filterMap (d.source? id)) (hp : n.ports = ["uv", "level"]) :
    Adds d path s (addTexture n input) id := by
  rw [hp] at hin hs
  rw [Inputs, List.forall_mem_cons, List.forall_mem_singleton] at hin
  refine .after (.of_still (still_param n "name")) fun name s₁ _ _ => ?_
  refine .after (hin.1 s₁) fun uv s₂ _ huv => ?_
  refine .after (hin.2 s₂) fun level s₃ hg hl => ?_
  replace huv := huv.grow hg
  cases level with
  | some level =>
    cases uv with
    | some uv => exact .push (fits_of_stands rfl (.cons huv.stands (.cons hl.stands .nil)) hs)
    | none => exact .fail
  | none =>
    have noLevel : d.source? id "level" = none := hl.mark.symm
    cases uv with
    | some uv =>
      have sources : d.sources id = ["uv"].filterMap (d.source? id) := by
        rw [hs, List.filterMap_cons, List.filterMap_cons (l := [])]
        simp only [List.filterMap_cons, List.filterMap_nil, noLevel]
      exact .push (fits_of_stands rfl (.cons huv.stands .nil) sources)
    | none =>
      have noUv : d.source? id "uv" = none := huv.mark.symm
      have sources : d.sources id = [] := by
        rw [hs]
        simp only [List.filterMap_cons, List.filterMap_nil, noLevel, noUv]
      refine .after gives_defaultUv fun fallback s₄ _ hf => ?_
      -- the context value has no name, and so it stands for no source
      have present : ∀ c ∈ NodeOf.children (.contextValue "uv" (some fallback) : Node),
          c.index < s₄.graph.size := List.forall_mem_singleton.2 hf
      refine .after (Gives.push (.asked fallback) present) fun uv s₅ _ hu => ?_
      refine .push ⟨List.forall_mem_singleton.2 hu.1, rfl, ?_⟩
      rw [sources]
      show [uv].filterMap s₅.graph.mark? = []
      rw [List.filterMap_cons, hu.2, List.filterMap_nil]

theorem ports_eq_nil (h : n.kind ∈ ["Const", "Uniform", "Attribute", "Property", "Builtin"]) :
    n.ports = [] := by
  rw [DocumentNode.ports]
  simp only [List.mem_cons, List.not_mem_nil, or_false] at h
  rcases h with h | h | h | h | h <;> rw [h] <;> rfl

/-- What is added for a node refers to what stands for its inputs. -/
theorem addNode_adds (hin : Inputs d path id n.ports input)
    (hs : d.sources id = n.ports.filterMap (d.source? id)) :
    Adds d path s (addNode n input) id := by
  have leaf : n.kind ∈ ["Const", "Uniform", "Attribute", "Property", "Builtin"] →
      d.sources id = [] := fun hk => by rw [hs, ports_eq_nil hk, List.filterMap_nil]
  unfold addNode
  split
  · next hk =>
    refine .after (.of_still (still_typeParam? n)) fun type _ _ _ => ?_
    refine .after (.of_still (still_valuesParam n "value")) fun values _ _ _ => ?_
    exact .push (fits_leaf rfl rfl (leaf (by simp [hk])))
  · next hk =>
    refine .after (.of_still (still_typeParam? n)) fun type _ _ _ => ?_
    refine .after (.of_still (still_valuesParam n "value")) fun values _ _ _ => ?_
    refine .after (.of_still (still_cadenceParam n)) fun update _ _ _ => ?_
    exact .push (fits_leaf rfl rfl (leaf (by simp [hk])))
  · next hk =>
    refine .after (.of_still (still_param n "name")) fun name _ _ _ => ?_
    refine .after (.of_still (still_typeParam? n)) fun type _ _ _ => ?_
    exact .push (fits_leaf rfl rfl (leaf (by simp [hk])))
  · next hk => exact addVarying_adds hin hs (by simp only [DocumentNode.ports, hk])
  · next hk =>
    refine .after (.of_still (still_param n "name")) fun name _ _ _ => ?_
    refine .after (.of_still (still_typeParam n)) fun type _ _ _ => ?_
    exact .push (fits_leaf rfl rfl (leaf (by simp [hk])))
  · next hk => exact addVar_adds hin hs (by simp only [DocumentNode.ports, hk])
  · next hk =>
    have hp : n.ports = ["a", "b"] := by simp only [DocumentNode.ports, hk]
    rw [hp] at hin hs
    refine .after (.of_still (still_operatorParam n)) fun op s₁ _ _ => ?_
    refine .after (gives_operand none (hin "a" (.head _) s₁)) fun a s₂ _ ha => ?_
    refine .after (gives_operand none (hin "b" (.tail _ (.head _)) s₂)) fun b s₃ hg hb => ?_
    exact .push (fits_of_stands rfl (.cons (ha.grow hg) (.cons hb .nil)) hs)
  · next hk =>
    refine .after (.of_still (still_methodParam n)) fun m s₁ _ hm => ?_
    have hp : n.ports = mathInputs.take m.arity := by simp only [DocumentNode.ports, hk, hm]
    rw [hp] at hin hs
    refine .after (Gives.mapM (fun h hg => h.grow hg)
      fun key hk s => gives_operand none (hin key hk s)) fun args s₂ _ h => ?_
    exact .push (fits_of_stands rfl h hs)
  · next hk =>
    have hp : n.ports = ["node"] := by simp only [DocumentNode.ports, hk]
    rw [hp] at hin hs
    refine .after (gives_required (hin "node" (.head _) s)) fun source s₁ _ h => ?_
    refine .after (.of_still (still_param n "components")) fun components s₂ hg _ => ?_
    exact .push (fits_of_stands rfl (.cons (h.grow hg) .nil) hs)
  · next hk => exact addJoin_adds hin hs (by simp only [DocumentNode.ports, hk])
  · next hk =>
    have hp : n.ports = ["node"] := by simp only [DocumentNode.ports, hk]
    rw [hp] at hin hs
    refine .after (gives_required (hin "node" (.head _) s)) fun source s₁ _ h => ?_
    refine .after (.of_still (still_typeParam n)) fun target s₂ hg _ => ?_
    exact .push (fits_of_stands rfl (.cons (h.grow hg) .nil) hs)
  · next hk =>
    have hp : n.ports = ["cond", "a", "b"] := by simp only [DocumentNode.ports, hk]
    rw [hp] at hin hs
    rw [Inputs, List.forall_mem_cons, List.forall_mem_cons, List.forall_mem_singleton] at hin
    obtain ⟨cond, left, right⟩ := hin
    refine .after (gives_required (cond s)) fun c s₁ _ hc => ?_
    refine .after (gives_operand none (left s₁)) fun a s₂ hg ha => ?_
    refine .after (gives_operand none (right s₂)) fun b s₃ hg' hb => ?_
    exact .push (fits_of_stands rfl
      (.cons (hc.grow (hg.trans hg')) (.cons (ha.grow hg') (.cons hb .nil))) hs)
  · next hk => exact addTexture_adds hin hs (by simp only [DocumentNode.ports, hk])
  · next hk =>
    refine .after (.of_still (still_builtinParam n)) fun value _ _ _ => ?_
    exact .push (fits_leaf rfl rfl (leaf (by simp [hk])))
  · next hk => exact addRemap_adds hin hs (by simp only [DocumentNode.ports, hk])
  · exact .fail

end Lower

namespace Document

open Lower Draft

variable {d : Document} {path : List String} {s : Draft} {id : String}

/-! ### The recursion -/

/-- What is connected to an input, lowered by `below`. -/
def input (d : Document) (below : String → Lower NodeId) (id key : String) :
    Lower (Option NodeId) :=
  match d.incoming? id key with
  | some c => return some (← below c.source.node)
  | none => return none

/-- Adds a node that was not added before. -/
def addNew (d : Document) (below : String → Lower NodeId) (id : String) (n : DocumentNode) :
    Lower NodeId := do
  let node ← Lower.within (.node id n.kind) (Lower.addNode n (d.input below id))
  Author.setLabel node id
  Lower.remember id node
  return node

theorem lowerNode_zero (path : List String) (id : String) :
    d.lowerNode 0 path id = (do
      match ← Lower.known? id with
      | some node => return node
      | none =>
        match d.node? id with
        | none => Lower.fail (.missingNode id)
        | some _ => Lower.fail (.cycle id)) := by
  rw [lowerNode]
  refine congrArg (Lower.known? id >>= ·) (funext fun known => ?_)
  cases known with
  | some node => rfl
  | none =>
    cases d.node? id with
    | none => rfl
    | some n => exact ite_self _

theorem lowerNode_succ (fuel : Nat) (path : List String) (id : String) :
    d.lowerNode (fuel + 1) path id = (do
      match ← Lower.known? id with
      | some node => return node
      | none =>
        match d.node? id with
        | none => Lower.fail (.missingNode id)
        | some n =>
          if path.contains id then Lower.fail (.cycle id)
          else d.addNew (d.lowerNode fuel (id :: path)) id n) := by
  rw [lowerNode]
  rfl

theorem id_of_node? {n : DocumentNode} (h : d.node? id = some n) :
    id ∈ d.nodes.map DocumentNode.id := by
  have found := List.find?_some h
  exact List.mem_map.2 ⟨n, List.mem_of_find?_eq_some h, of_decide_eq_true found⟩

/-- The nodes on the way are different nodes of the document, so one more step down is no use
where there are at least as many steps as other nodes. -/
theorem lowerNode_succ_eq {fuel : Nat} (hn : path.Nodup) (hs : path ⊆ d.nodes.map DocumentNode.id)
    (hf : d.nodes.length ≤ fuel + path.length) :
    d.lowerNode (fuel + 1) path id = d.lowerNode fuel path id := by
  induction fuel generalizing path id with
  | zero =>
    rw [lowerNode_succ, lowerNode_zero]
    congr 1
    funext known
    cases known with
    | some node => rfl
    | none =>
      dsimp only
      split
      · rfl
      · next n hn' =>
        split
        · rfl
        · next hp =>
          -- all nodes of the document are on the way
          have nodup : (id :: path).Nodup :=
            List.nodup_cons.2 ⟨fun h => hp (List.contains_iff_mem.2 h), hn⟩
          have sub : id :: path ⊆ d.nodes.map DocumentNode.id :=
            List.cons_subset.2 ⟨id_of_node? hn', hs⟩
          have := (nodup.subperm sub).length_le
          rw [List.length_map, List.length_cons] at this
          omega
  | succ fuel ih =>
    rw [lowerNode_succ, lowerNode_succ]
    congr 1
    funext known
    cases known with
    | some node => rfl
    | none =>
      dsimp only
      split
      · rfl
      · next n hn' =>
        split
        · rfl
        · next hp =>
          have below : d.lowerNode (fuel + 1) (id :: path) = d.lowerNode fuel (id :: path) := by
            funext id'
            refine ih (List.nodup_cons.2 ⟨fun h => hp (List.contains_iff_mem.2 h), hn⟩)
              (List.cons_subset.2 ⟨id_of_node? hn', hs⟩) ?_
            rw [List.length_cons]
            omega
          rw [below]

/-- As many steps down as there are nodes are enough. -/
theorem lowerNode_enough (k : Nat) (id : String) :
    d.lowerNode (d.nodes.length + k) [] id = d.lowerNode d.nodes.length [] id := by
  induction k with
  | zero => rfl
  | succ k ih =>
    rw [← ih, ← Nat.add_assoc]
    refine lowerNode_succ_eq List.nodup_nil (List.nil_subset _) ?_
    rw [List.length_nil]
    omega

/-- Lowering gives what the node became. -/
def Becomes (id : String) (a : NodeId) (s : Draft) : Prop := s.known.get? id = some a

theorem gives_input {below : String → Lower NodeId} {key : String}
    (h : ∀ id' s, d.source? id key = some id' → Gives d path s (below id') (Becomes id')) :
    Gives d path s (d.input below id key) (Reads d id key) := by
  unfold input
  unfold source? at h
  cases hc : d.incoming? id key with
  | none =>
    refine .pure ⟨fun i hi => (nomatch hi), ?_⟩
    unfold source?
    rw [hc]
    rfl
  | some c =>
    rw [hc] at h
    intro hs
    refine (h c.source.node s rfl).bind (fun a s' _ ha => ?_) hs
    intro hs'
    refine Gives.pure ⟨fun i hi => ?_, ?_⟩ hs'
    · cases hi
      exact hs'.lt_size ha
    · unfold source?
      rw [hc]
      exact hs'.marked.1 ha

/-- A node that was not known becomes a node of its own. -/
theorem gives_addNew {below : String → Lower NodeId} {n : DocumentNode} (hn : d.node? id = some n)
    (hu : d.Used id) (hp : id ∉ path) (hk : s.known.get? id = none)
    (h : ∀ id' s, id' ∈ d.sources id → Gives d (id :: path) s (below id') (Becomes id')) :
    Gives d path s (d.addNew below id n) (Becomes id) := by
  have inputs : Inputs d (id :: path) id n.ports (d.input below id) :=
    fun key hkey s => gives_input fun id' s hs => h id' s (mem_sources hn hkey hs)
  intro hs a s' hr
  obtain ⟨node, s₁, hr₁, hr⟩ := runs_bind hr
  obtain ⟨s₂, m, hs₂, hg, hf, rfl, rfl⟩ :=
    addNode_adds inputs (sources_of_node hn) hs node s₁ hr₁.of_within
  have unknown : s₂.known.get? id = none := hg.path id (.head _) hk
  -- what is left gives the new node its name and remembers it
  have eq := Except.ok.inj hr
  obtain ⟨g', m'⟩ := s'
  cases eq
  refine ⟨hs₂.settle hf unknown hu ⟨n, hn⟩, ?_, ?_⟩
  · exact (hg.mono fun _ => List.mem_cons_of_mem _).trans (grows_settle hp unknown)
  · show (s₂.known.put id _).get? id = _
    rw [OrderedMap.get?_put, if_pos rfl]

theorem gives_lowerNode (fuel : Nat) (hu : d.Used id) :
    Gives d path s (d.lowerNode fuel path id) (Becomes id) := by
  induction fuel generalizing path id s with
  | zero =>
    rw [lowerNode_zero]
    refine .known fun a ha => ?_
    cases a with
    | some a => exact .pure ha
    | none =>
      dsimp only
      split
      · exact .fail
      · exact .fail
  | succ fuel ih =>
    rw [lowerNode_succ]
    refine .known fun a ha => ?_
    cases a with
    | some a => exact .pure ha
    | none =>
      dsimp only
      split
      · exact .fail
      · next n hn =>
        split
        · exact .fail
        · next hp =>
          refine gives_addNew hn hu (fun h => hp (List.contains_iff_mem.2 h)) ha ?_
          exact fun id' s hs => ih (.source hu hs)

/-! ### Whole documents -/

/-- The root of a stage is what its output became. -/
def Rooted (d : Document) (stage : Stage) (a : Option NodeId) (s : Draft) : Prop :=
  match d.outputs.get? stage.name with
  | none => a = none
  | some id => ∃ i, a = some i ∧ s.known.get? id = some i

theorem Rooted.grow {stage : Stage} {a : Option NodeId} {s' : Draft} (h : d.Rooted stage a s)
    (hg : Grows path s s') : d.Rooted stage a s' := by
  unfold Rooted at h ⊢
  split at h
  · exact h
  · obtain ⟨i, ha, hi⟩ := h
    exact ⟨i, ha, hg.known hi⟩

theorem gives_lowerOutput (stage : Stage) :
    Gives d [] s (d.lowerOutput stage) (d.Rooted stage) := by
  unfold lowerOutput Rooted
  cases h : d.outputs.get? stage.name with
  | none => exact .pure rfl
  | some id =>
    dsimp only
    refine Gives.bind (P := Becomes id) ?_ fun a s' _ ha => .pure ⟨a, rfl, ha⟩
    exact fun hs a s' hr => gives_lowerNode _ (.output h) hs a s' hr.of_within

theorem gives_lowerOutputs :
    Gives d [] s d.lowerOutputs fun request s' => ∀ stage, d.Rooted stage (request.root? stage) s' := by
  unfold lowerOutputs
  refine (gives_lowerOutput .compute).bind fun compute s₁ _ hc => ?_
  refine (gives_lowerOutput .fragment).bind fun fragment s₂ hg hf => ?_
  refine (gives_lowerOutput .vertex).bind fun vertex s₃ hg' hv => .pure fun stage => ?_
  cases stage with
  | vertex => exact hv
  | fragment => exact hf.grow hg'
  | compute => exact hc.grow (hg.trans hg')

/-- What is known in the end is closed under sources, and the outputs are known. -/
theorem known_of_used (hs : Sound d s) {request : BuildRequest}
    (hr : ∀ stage, d.Rooted stage (request.root? stage) s) (h : d.Used id) :
    ∃ i, s.known.get? id = some i := by
  induction h with
  | @output stage id ho =>
    have root := hr stage
    unfold Rooted at root
    rw [ho] at root
    obtain ⟨i, -, hi⟩ := root
    exact ⟨i, hi⟩
  | source _ hmem ih =>
    obtain ⟨i, hi⟩ := ih
    obtain ⟨node, hn⟩ := Graph.exists_get? (hs.lt_size hi)
    rw [← hs.wired hi hn] at hmem
    obtain ⟨c, -, hc⟩ := List.mem_filterMap.1 hmem
    exact ⟨c, hs.marked.2 hc⟩

/-- The graph of a document: what each node of the document became, and how these nodes refer to
each other. -/
structure IsLoweredTo (d : Document) (l : Lowered) (became : String → NodeId) : Prop where
  /-- Nodes refer to earlier ones only. -/
  back : ∀ {i n}, l.graph.get? i = some n → ∀ c ∈ n.children, c.index < i.index
  listed : ∀ {id}, d.Used id → ∃ n, d.node? id = some n
  present : ∀ {id}, d.Used id → ∃ n, l.graph.get? (became id) = some n
  /-- Different nodes of the document became different nodes. -/
  distinct : ∀ {id id'}, d.Used id → d.Used id' → became id = became id' → id = id'
  /-- What a node of the document became is called like it in messages. -/
  labelled : ∀ {id}, d.Used id → l.graph.label? (became id) = some id
  /-- No other node was given that name, and only what is used became anything. -/
  named : ∀ {id i}, l.graph.mark? i = some id ↔ d.Used id ∧ became id = i
  helpers : ∀ {i n}, l.graph.get? i = some n → l.graph.mark? i = none → n.IsHelper
  /-- Helpers apart, a node refers to what its sources became. -/
  wired : ∀ {id n}, d.Used id → l.graph.get? (became id) = some n →
    n.children.filter (fun c => (l.graph.mark? c).isSome) = (d.sources id).map became
  roots : ∀ stage, l.request.root? stage = (d.outputs.get? stage.name).map became

theorem filter_isSome {mark? : NodeId → Option String} {became : String → NodeId}
    {cs : List NodeId} (h : ∀ c ∈ cs, ∀ id, mark? c = some id → became id = c) :
    cs.filter (fun c => (mark? c).isSome) = (cs.filterMap mark?).map became := by
  induction cs with
  | nil => rfl
  | cons c rest ih =>
    have ih := ih fun c hc => h c (.tail _ hc)
    rw [List.filter_cons, List.filterMap_cons]
    cases hm : mark? c with
    | none => exact ih
    | some id => simp only [Option.isSome_some, if_true, List.map_cons, h c (.head _) id hm, ih]

/-- A sound draft that knows the outputs is what the document is lowered to. -/
theorem isLoweredTo (hs : Sound d s) {request : BuildRequest}
    (hr : ∀ stage, d.Rooted stage (request.root? stage) s) (options : BuildOptions) :
    d.IsLoweredTo ⟨s.graph, request, options⟩ s.became where
  back := hs.back
  listed hu := by
    obtain ⟨i, hi⟩ := known_of_used hs hr hu
    exact hs.listed hi
  present hu := by
    obtain ⟨i, hi⟩ := known_of_used hs hr hu
    rw [became_of_known hi]
    exact Graph.exists_get? (hs.lt_size hi)
  distinct hu hu' he := by
    obtain ⟨i, hi⟩ := known_of_used hs hr hu
    obtain ⟨i', hi'⟩ := known_of_used hs hr hu'
    rw [became_of_known hi, became_of_known hi'] at he
    cases he
    exact Option.some.inj ((hs.marked.1 hi).symm.trans (hs.marked.1 hi'))
  labelled hu := by
    obtain ⟨i, hi⟩ := known_of_used hs hr hu
    rw [became_of_known hi]
    exact Graph.label?_of_mark? (hs.marked.1 hi)
  named {id i} := by
    constructor
    · intro hm
      have hk := hs.marked.2 hm
      exact ⟨hs.used hk, became_of_known hk⟩
    · rintro ⟨hu, rfl⟩
      obtain ⟨i, hi⟩ := known_of_used hs hr hu
      rw [became_of_known hi]
      exact hs.marked.1 hi
  helpers := hs.helper
  wired hu hn := by
    obtain ⟨i, hi⟩ := known_of_used hs hr hu
    rw [became_of_known hi] at hn
    rw [← hs.wired hi hn]
    exact filter_isSome fun c _ id hm => became_of_known (hs.marked.2 hm)
  roots stage := by
    have root := hr stage
    unfold Rooted at root
    show request.root? stage = _
    cases ho : d.outputs.get? stage.name with
    | none =>
      rw [ho] at root
      exact root
    | some id =>
      rw [ho] at root
      obtain ⟨i, hi, hk⟩ := root
      rw [hi, Option.map_some, became_of_known hk]

/-- Where lowering ends well, it ends with a sound draft that knows the outputs. -/
theorem sound_of_lower {l : Lowered} (h : d.lower = .ok l) :
    ∃ known, Sound d ⟨l.graph, known⟩ ∧
      (∀ stage, d.Rooted stage (l.request.root? stage) ⟨l.graph, known⟩) ∧
        (d.nodes.map DocumentNode.id).Nodup ∧ l.request.roots ≠ [] := by
  unfold lower at h
  split at h
  · cases h
  · next hf =>
    split at h
    · cases h
    · next request graph known hr =>
      split at h
      · cases h
      · next he =>
        cases h
        obtain ⟨hs, -, roots⟩ :=
          gives_lowerOutputs (Sound.empty d Workspace.firstUid) request ⟨graph, known⟩ hr
        refine ⟨known, hs, roots, ?_, fun hnil => he (List.isEmpty_iff.2 hnil)⟩
        by_contra hdup
        unfold fault? at hf
        rw [if_neg hdup] at hf
        cases hf

end Document

end ShaderGraph
