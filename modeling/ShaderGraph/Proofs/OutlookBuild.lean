import ShaderGraph.Proofs.CyclesBuild
import ShaderGraph.Proofs.Outlook

/-!
# What generation looks at

The code of a node follows the references that the node follows (`Outlook.Sees.generateNode`), so
generation of a root follows those of the outlook only (`Outlook.runs_generator`,
`Outlook.Sees.generateStage`). The search for statements below a branch keeps to them too, and it
ends before its fuel does, so it finds the same in both graphs (`Outlook.arePureFrom_same`).

Once nothing below the roots is left to replace, all that a build looks at is below the roots,
apart from the loops that loop indices there name (`Plan.LooksBelow`): a build of another plan that
is the same so far (`Plan.AgreesBelow`) goes alike. So no build is refused because a node was not
replaced (`expansion_complete`), whatever custom nodes do to the graph.
-/

namespace ShaderGraph

namespace Outlook

open Build

variable {o : Outlook} {g : Generator} {α β : Type} {id : NodeId} {n : Node}

/-- Code and places are generated along the references of the outlook only. -/
structure Runs (o : Outlook) (g : Generator) : Prop where
  emit : ∀ {id}, o.ids id → o.Sees (g.emit id)
  place : ∀ {id}, o.ids id → o.Sees (g.place id)

theorem Runs.statement (hg : o.Runs g) (h : o.ids id) : o.Sees (g.statement id) :=
  .discard (hg.emit h)

theorem Runs.value (hg : o.Runs g) (h : o.ids id) (target : ValueType) :
    o.Sees (g.value id target) := by
  refine .resolve h fun m _ hm => .located hm (.bind (hg.emit hm.met) fun e => ?_)
  refine .bind (.typeOf hm.met) fun type => ?_
  split
  · exact .when (.fail rfl) fun _ => .ofExcept fun _ _ => rfl
  · exact .fail rfl

theorem Runs.values (hg : o.Runs g) {vs : List (NodeId × ValueType)}
    (h : ∀ v ∈ vs, o.ids v.1) : o.Sees (g.values vs) :=
  .mapM fun v hv => hg.value (h v hv) v.2

/-! ### Values bound to names -/

theorem Sees.bindName (hid : o.ids id) (name : String) (frame : Option FrameId) :
    o.Sees (bindName id name frame) :=
  .read (fun _ _ => rfl) fun env _ => .bind (.of_aloof .here) fun _ =>
    .modify fun _ hs => hs.record hid env.scope (some env.stage) _

theorem Sees.bindValue (hid : o.ids id) (name : String) : o.Sees (bindValue id name) :=
  .read (fun _ _ => rfl) fun _ _ => .bindName hid name _

theorem Sees.buildTemp (hid : o.ids id) {step : Build (Option Expr)} (h : o.Sees step) :
    o.Sees (buildTemp id step) := by
  refine .bind (.of_aloof (boundName?_aloof id)) fun bound => ?_
  split
  · exact .pure _
  · refine .bind h fun e => .bind (.typeOf hid) fun type => ?_
    cases e with
    | none => exact .pure _
    | some e =>
      refine .bind (.of_aloof (usage_aloof id)) fun k => .ite (.pure _) ?_
      refine .bind (.of_aloof (declareTemp_aloof _ _ _)) fun name => ?_
      exact .bind (.bindValue hid name) fun _ => .pure _

theorem Sees.inBlock {step : Build Unit} (h : o.Sees step) : o.Sees (inBlock step) :=
  .bind (.of_aloof (.modifyHere _)) fun _ => .bind h fun _ => .bind (.of_aloof .here) fun _ =>
    .bind (.of_aloof (.modifyHere _)) fun _ => .pure _

/-! ### Expressions -/

theorem Sees.writeVarying (hg : o.Runs g) {v : VaryingEntry} (h : o.ids v.source) :
    o.Sees (writeVarying g id v) := by
  refine .ite (.pure _) (.bind (.inStage .vertex ?_) fun _ => .locateVarying h)
  refine .bind (hg.value h v.type) fun e => .bind (.of_aloof (addStatement_aloof _)) fun _ => ?_
  exact .of_aloof (.modifyHere _)

theorem Sees.buildVarying (hg : o.Runs g) {source : NodeId} (h : o.ids source)
    (name : Option String) (interpolation : Interpolation) (sampling : Option Sampling) :
    o.Sees (buildVarying g id source name interpolation sampling) := by
  refine .bind (.of_aloof .stage) fun t => .when (.fail rfl) fun _ => ?_
  refine .using (Gives.registerVarying h) fun v hv => .bind (.writeVarying hg hv) fun _ => ?_
  exact .when (.of_aloof (.modifyHere _)) fun _ => .pure _

theorem Sees.buildTexture (hg : o.Runs g) {uv : NodeId} {level : Option NodeId} (name : String)
    (h : ∀ c ∈ uv :: level.toList, o.ids c) : o.Sees (buildTexture g name uv level) := by
  refine .bind (hg.value (h _ (.head _)) _) fun u => .bind ?_ fun l => ?_
  · cases level with
    | none => exact .bind (.of_aloof .stage) fun t => .pure _
    | some level => exact .bind (hg.value (h _ (.tail _ (.head _))) _) fun e => .pure _
  · exact .bind (.of_aloof (useTexture_aloof name)) fun t => .pure _

theorem Sees.buildOperator (hg : o.Runs g) (op : BinaryOp) {left right : NodeId}
    (hl : o.ids left) (hr : o.ids right) : o.Sees (buildOperator g op left right) := by
  refine .bind (.typeOf hl) fun l => .bind (.typeOf hr) fun r => ?_
  refine .bind (.ofExcept fun _ _ => rfl) fun result => ?_
  refine .bind (hg.value hl _) fun e => .bind (hg.value hr _) fun e' => ?_
  exact .ite (.pure _) (.pure _)

theorem Sees.buildUnary (hg : o.Runs g) (op : UnaryOp) {operand : NodeId} (h : o.ids operand) :
    o.Sees (buildUnary g op operand) := by
  refine .bind (.typeOf h) fun t => .bind (.discard (.ofExcept fun _ _ => rfl)) fun _ => ?_
  exact .bind (hg.emit h) fun e => .pure _

theorem Sees.buildMath (hg : o.Runs g) (hid : o.ids id) (m : MathMethod) {args : List NodeId}
    (h : ∀ c ∈ args, o.ids c) : o.Sees (buildMath g id m args) := by
  refine .bind (.of_aloof .stage) fun stage => .when (.fail rfl) fun _ => ?_
  refine .bind (.typeOf hid) fun result => .bind (.mapM fun c hc => .typeOf (h c hc)) fun ts => ?_
  refine .bind (.ofExcept fun _ _ => rfl) fun targets => .bind (hg.values fun v hv => ?_) fun es => ?_
  · exact h v.1 (List.of_mem_zip hv).1
  · exact .pure _

theorem Sees.buildSplit (hg : o.Runs g) {source : NodeId} (h : o.ids source)
    (components : String) : o.Sees (buildSplit g source components) := by
  refine .bind (.typeOf h) fun type => .bind (.discard (.ofExcept fun _ _ => rfl)) fun _ => ?_
  exact .bind (.ofExcept fun _ _ => rfl) fun cs => .bind (hg.emit h) fun e => .pure _

theorem Sees.buildJoin (hg : o.Runs g) (hid : o.ids id) {parts : List NodeId}
    (h : ∀ c ∈ parts, o.ids c) : o.Sees (buildJoin g id parts) := by
  refine .bind (.typeOf hid) fun type => .bind (.mapM fun c hc => ?_) fun es => ?_
  · exact .bind (.typeOf (h c hc)) fun t => hg.value (h c hc) _
  · exact .bind (.of_aloof (useType_aloof type)) fun _ => .pure _

theorem Sees.buildConvert (hg : o.Runs g) {source : NodeId} (h : o.ids source)
    (target : ValueType) : o.Sees (buildConvert g source target) := by
  refine .bind (.typeOf h) fun type => .bind (hg.emit h) fun e => ?_
  split
  · exact .bind (.ofExcept fun _ _ => rfl) fun e => .pure _
  · exact .when (.fail rfl) fun _ => .pure _

theorem Sees.buildStruct (hg : o.Runs g) (hid : o.ids id) {values : List NodeId}
    (h : ∀ c ∈ values, o.ids c) : o.Sees (buildStruct g id values) := by
  refine .bind (.typeOf hid) fun type => .bind (.of_aloof (.structMembers _)) fun members => ?_
  refine .when (.fail rfl) fun _ => .bind (hg.values fun v hv => ?_) fun es => ?_
  · exact h v.1 (List.of_mem_zip hv).1
  · exact .bind (.of_aloof (useType_aloof type)) fun _ => .pure _

theorem Sees.buildArray (hg : o.Runs g) (element : ValueType) {values : List NodeId}
    (h : ∀ c ∈ values, o.ids c) : o.Sees (buildArray g element values) := by
  refine .bind (.ofExcept fun _ _ => rfl) fun type => .bind (hg.values fun v hv => ?_) fun es => ?_
  · obtain ⟨c, hc, rfl⟩ := List.mem_map.1 hv
    exact h c hc
  · exact .bind (.of_aloof (useType_aloof type)) fun _ => .pure _

theorem Sees.buildMember (hg : o.Runs g) {base : NodeId} (h : o.ids base) (name : String) :
    o.Sees (buildMember g base name) := by
  refine .bind (.typeOf h) fun type => .bind (.discard (.of_aloof (memberType_aloof type name))) ?_
  exact fun _ => .bind (hg.emit h) fun e => .pure _

theorem Sees.checkIndex (base : ValueType) {i : NodeId} (h : o.ids i) :
    o.Sees (checkIndex base i) := by
  refine .resolve h fun m _ hm => .node hm fun n _ _ => ?_
  split
  · exact .ite (.fail rfl) (.pure _)
  · exact .pure _

theorem Sees.buildElement (hg : o.Runs g) (base : Option Expr) {source i : NodeId}
    (hs : o.ids source) (hi : o.ids i) : o.Sees (buildElement g base source i) := by
  refine .bind (.typeOf hs) fun type => .bind (.typeOf hi) fun index => ?_
  refine .bind (.discard (.of_aloof (elementType_aloof type index))) fun _ => ?_
  exact .bind (.checkIndex type hi) fun _ => .bind (hg.value hi index) fun e => .pure _

theorem Sees.buildIndex (hg : o.Runs g) {base i : NodeId} (hb : o.ids base) (hi : o.ids i) :
    o.Sees (buildIndex g base i) :=
  .bind (hg.emit hb) fun e => .buildElement hg e hb hi

/-! ### Places and assignments -/

theorem Sees.placeBase (hg : o.Runs g) {base : NodeId} (h : o.ids base) :
    o.Sees (placeBase g base) := by
  refine .resolve h fun m _ hm => .node hm fun n _ _ => ?_
  split
  · refine .bind (.of_aloof (registerStorage_aloof _ _ _ _)) fun b => ?_
    refine .bind (.of_aloof (useStorage_aloof _ b)) fun e => ?_
    exact .when (.fail rfl) fun _ => .pure _
  · exact .bind (hg.place h) fun e => .pure _

/-- The place of a node follows the references that the node follows. -/
theorem Sees.placeOf (hg : o.Runs g) (hid : o.Built id) (hn : o.plan.node id = .ok n)
    (type : ValueType) : o.Sees (placeOf g id type n) := by
  have own : o.Sees (ownPlace g id type) := by
    refine .bind (hg.emit hid.met) fun e => ?_
    cases e with
    | some e => exact .pure e
    | none => exact Sees.fail rfl
  have h : ∀ c ∈ n.children, o.ids c := fun c hc => hid.child hn hc
  cases n with
  | var value name readOnly =>
    cases readOnly with
    | true => exact Sees.fail rfl
    | false => exact own
  | property name type => exact own
  | member base name => exact .bind (hg.place (h base (.head _))) fun e => .pure _
  | index base i =>
    have hb := h base (.head _)
    refine .bind (.placeBase hg hb) fun e => ?_
    refine .bind (.buildElement hg (some e) hb (h i (.tail _ (.head _)))) fun e => ?_
    cases e with
    | some e => exact .pure e
    | none => exact .fail rfl
  | split base components =>
    refine .bind (.of_aloof .dialect) fun d => ?_
    have rest : o.Sees (swizzlePlace g base components) :=
      .bind (hg.place (h base (.head _))) fun e => .bind (.ofExcept fun _ _ => rfl) fun cs => .pure _
    refine .ite (.bind (.of_aloof .dialect) fun d => .bind (.fail rfl) fun _ => rest) rest
  | _ => exact .fail rfl

theorem Sees.buildPlace (hg : o.Runs g) (h : o.ids id) : o.Sees (buildPlace g id) := by
  refine .resolve h fun m _ hm => .located hm (.node hm fun n hn _ => ?_)
  exact .bind (.typeOf hm.met) fun type => .bind (.placeOf hg hm hn type) fun e => .pure _

theorem Sees.mutability {value : NodeId} (h : o.ids value) (readOnly : Bool) :
    o.Sees (mutability value readOnly) := by
  refine .ite (.pure _) (.resolve h fun m _ hm => .node hm fun n _ _ => ?_)
  split
  · exact .pure _
  · exact .pure _

theorem Sees.buildVariable (hg : o.Runs g) (hid : o.ids id) {value : NodeId} (h : o.ids value)
    (name : Option String) (readOnly : Bool) :
    o.Sees (buildVariable g id value name readOnly) := by
  have prepare : o.Sees (prepareVariable g id value name) := by
    refine .bind (.typeOf hid) fun type => .bind (hg.value h type) fun init => ?_
    refine .bind (.of_aloof (useType_aloof type)) fun _ => ?_
    cases name with
    | some name => exact .bind (.of_aloof (claimLocal_aloof name)) fun _ => .pure _
    | none => exact .bind (.of_aloof claimTemp_aloof) fun _ => .pure _
  have declare : ∀ name type init, o.Sees (declareVariable id value readOnly name type init) :=
    fun name type init => .bind (.mutability h readOnly) fun m =>
      .bind (.of_aloof (recordKey_aloof id)) fun key =>
        .bind (.of_aloof (addStatement_aloof _)) fun _ => .bindName hid name none
  refine .bind (.of_aloof (boundName?_aloof id)) fun bound => ?_
  split
  · exact .pure _
  · exact .bind prepare fun v => .bind (declare _ _ _) fun _ => .pure _

theorem Sees.buildAssign (hg : o.Runs g) {target value : NodeId} (ht : o.ids target)
    (hv : o.ids value) (op : Option BinaryOp) : o.Sees (buildAssign g target value op) := by
  refine .bind (hg.place ht) fun place => ?_
  cases op with
  | none =>
    refine .bind (.bind (hg.value hv _) fun e => .pure _) fun st => ?_
    exact .of_aloof (addStatement_aloof st)
  | some op =>
    refine .bind (.bind (.typeOf hv) fun t => .bind (.ofExcept fun _ _ => rfl) fun r => ?_) fun st =>
      .of_aloof (addStatement_aloof st)
    exact .when (.fail rfl) fun _ => .bind (hg.value hv _) fun e => .ite (.pure _) (.pure _)

/-! ### Branches -/

/-- The search for statements is the same in both graphs, and it misses nothing. -/
theorem arePureFrom_same {fuel fuel' : Nat} {ids seen : List NodeId} (h : ∀ c ∈ ids, o.ids c)
    (hf : ids.length + o.plan.unseen seen < fuel)
    (hf' : ids.length + (o.plan.renewed o.graph o.expansions).unseen seen < fuel') :
    arePureFrom (o.plan.renewed o.graph o.expansions) fuel' ids seen =
        arePureFrom o.plan fuel ids seen ∧
      ∃ b, arePureFrom o.plan fuel ids seen = .ok b := by
  induction fuel generalizing fuel' ids seen with
  | zero => omega
  | succ fuel ih =>
    obtain ⟨fuel', rfl⟩ := Nat.exists_eq_add_one_of_ne_zero (Nat.ne_zero_of_lt hf')
    cases ids with
    | nil => exact ⟨rfl, true, rfl⟩
    | cons id rest =>
      rw [List.forall_mem_cons] at h
      rw [List.length_cons] at hf hf'
      obtain ⟨m, n, hm, hn, -⟩ := o.settled h.1
      have hb := built h.1 hm
      have hn' : (o.plan.renewed o.graph o.expansions).node m = .ok n := by
        rw [← hn]
        unfold Plan.node Graph.get?
        exact hb.entry ▸ rfl
      rw [arePureFrom, arePureFrom, (o.same h.1).1, hm]
      simp only [hn, hn']
      by_cases hs : seen.contains m
      · rw [if_pos hs, if_pos hs]
        exact ih h.2 (by omega) (by omega)
      · rw [if_neg hs, if_neg hs]
        replace hs : m ∉ seen := fun hmem => hs (List.contains_iff_mem.2 hmem)
        by_cases hi : isImpure n
        · rw [if_pos hi, if_pos hi]
          exact ⟨rfl, false, rfl⟩
        · rw [if_neg hi, if_neg hi]
          have := Plan.unseen_cons hn hs
          have := Plan.unseen_cons hn' hs
          refine ih ?_ (by rw [List.length_append]; omega) (by rw [List.length_append]; omega)
          exact List.forall_mem_append.2 ⟨fun c hc => hb.child hn hc, h.2⟩

theorem Sees.arePure {ids : List NodeId} (h : ∀ c ∈ ids, o.ids c) : o.Sees (arePure ids) := by
  have found := arePureFrom_same h (Plan.lt_fuel o.plan ids) (Plan.lt_fuel _ ids)
  refine .read (fun env he => ?_) fun env he => ?_
  · show Build.ofExcept (arePureFrom (env.plan.renewed _ _) _ ids []) = _
    rw [he.plan]
    exact congrArg Build.ofExcept found.1
  · obtain ⟨-, b, hb⟩ := found
    show o.Sees (Build.ofExcept (arePureFrom env.plan _ ids []))
    rw [he.plan, hb]
    exact .pure b

theorem Sees.buildBranch (hg : o.Runs g) (h : o.ids id) (result : String) (type : ValueType) :
    o.Sees (buildBranch g result type id) :=
  .inBlock (.bind (hg.value h type) fun _ => .of_aloof (addStatement_aloof _))

theorem Sees.buildChoice (hg : o.Runs g) (hid : o.ids id) (type : ValueType) (condition : Expr)
    {thenNode elseNode : NodeId} (ht : o.ids thenNode) (he : o.ids elseNode) :
    o.Sees (buildChoice g id type condition thenNode elseNode) := by
  refine .bind (.arePure ?_) fun pure => .ite (.buildTemp hid ?_) ?_
  · exact List.forall_mem_cons.2 ⟨ht, List.forall_mem_singleton.2 he⟩
  · exact .bind (hg.value ht type) fun t => .bind (hg.value he type) fun e => .pure _
  · refine .bind (.of_aloof (declareTemp_aloof _ _ _)) fun result => ?_
    refine .bind (.buildBranch hg ht _ _) fun t => .bind (.buildBranch hg he _ _) fun e => ?_
    refine .bind (.of_aloof (addStatement_aloof _)) fun _ => ?_
    exact .bind (.bindValue hid result) fun _ => .pure _

theorem Sees.buildConditional (hg : o.Runs g) (hid : o.ids id) {condition thenNode : NodeId}
    {elseNode : Option NodeId} (h : ∀ c ∈ condition :: thenNode :: elseNode.toList, o.ids c) :
    o.Sees (buildConditional g id condition thenNode elseNode) := by
  have ht : o.ids thenNode := h _ (.tail _ (.head _))
  refine .bind (.of_aloof (boundName?_aloof id)) fun bound => ?_
  split
  · exact .pure _
  refine .bind (.typeOf hid) fun type => .bind (hg.value (h _ (.head _)) _) fun c => ?_
  cases elseNode with
  | none =>
    refine .bind (.inBlock (hg.statement ht)) fun t => ?_
    exact .bind (.of_aloof (addStatement_aloof _)) fun _ => .pure _
  | some elseNode =>
    have he : o.ids elseNode := h _ (.tail _ (.tail _ (.head _)))
    refine .ite (.bind (.inBlock (hg.statement ht)) fun t => ?_) (.buildChoice hg hid _ _ ht he)
    refine .bind (.inBlock (hg.statement he)) fun e => ?_
    exact .bind (.of_aloof (addStatement_aloof _)) fun _ => .pure _

/-! ### Loops, stacks and calls -/

theorem Sees.buildBound (hg : o.Runs g) (type : ValueType) (kind : ScalarKind)
    {b : LoopBound NodeId} (h : ∀ c, b = .node c → o.ids c) : o.Sees (buildBound g type kind b) := by
  cases b with
  | value v => exact .pure _
  | node c => exact hg.value (h c rfl) type

theorem Sees.buildLevels (hg : o.Runs g) {body : Option NodeId} (level : Nat)
    {params : List (LoopParam NodeId)}
    (h : ∀ c ∈ params.flatMap LoopParam.children ++ body.toList, o.ids c) :
    o.Sees (buildLevels g id body level params) := by
  induction params generalizing level with
  | nil =>
    cases body with
    | none => exact .pure _
    | some body => exact hg.statement (h body (.head _))
  | cons p rest ih =>
    rw [List.flatMap_cons, List.append_assoc, List.forall_mem_append] at h
    have bound : ∀ b, b = p.start ∨ b = p.stop → ∀ c, b = .node c → o.ids c := by
      intro b hb c hc
      refine h.1 c ?_
      rw [LoopParam.children]
      rcases hb with rfl | rfl
      · simp [hc]
      · simp [hc]
    rw [Build.buildLevels]
    refine .bind (.ofExcept fun _ _ => rfl) fun kind => .read (fun _ _ => rfl) fun env _ => ?_
    refine .bind (.of_aloof (claimLocal_aloof _)) fun counter => ?_
    refine .bind (.of_aloof (useType_aloof _)) fun _ => ?_
    refine .bind (.buildBound hg _ _ (bound _ (.inl rfl))) fun start => ?_
    refine .bind (.buildBound hg _ _ (bound _ (.inr rfl))) fun stop => ?_
    refine .bind (.inLoop _ (.inBlock (ih (level + 1) h.2))) fun inner => ?_
    exact .bind (.of_aloof (releaseLocal_aloof counter)) fun _ => .of_aloof (addStatement_aloof _)

theorem Sees.buildLoop (hg : o.Runs g) {params : List (LoopParam NodeId)} {body : Option NodeId}
    (h : ∀ c ∈ params.flatMap LoopParam.children ++ body.toList, o.ids c) :
    o.Sees (buildLoop g id params body) :=
  .when (.fail rfl) fun _ => .buildLevels hg 0 h

theorem Sees.buildCounter {loop : NodeId} {k : Nat} (hid : o.Built id)
    (hn : o.plan.node id = .ok (.loopIndex loop k)) : o.Sees (buildCounter loop k) := by
  refine .resolveAt (o.loops hid.met hid.own hn) (fun e he _ => ?_) fun m _ => ?_
  · refine ⟨id, loop, k, e, hid.met, hn, ?_, rfl⟩
    rw [he]
    rfl
  · refine .read (fun _ _ => rfl) fun env _ => ?_
    split
    · exact .pure _
    · exact .fail rfl

theorem Sees.buildStack (hg : o.Runs g) {nodes : List NodeId} {output : Option NodeId}
    (h : ∀ c ∈ nodes ++ output.toList, o.ids c) : o.Sees (buildStack g nodes output) := by
  rw [List.forall_mem_append] at h
  refine .bind (.forM fun c hc => hg.statement (h.1 c hc)) fun _ => ?_
  cases output with
  | none => exact .pure _
  | some output => exact hg.emit (h.2 output (.head _))

theorem Sees.buildArgument (hg : o.Runs g) (h : o.ids id) (function : String)
    (p : Native.Parameter) : o.Sees (buildArgument g function id p) := by
  refine .ite (.bind (hg.place h) fun e => ?_) (hg.value h _)
  exact .when (.fail rfl) fun _ => .pure _

theorem Sees.buildCall (hg : o.Runs g) (hid : o.ids id) (function : FunctionId)
    {args : List NodeId} (h : ∀ c ∈ args, o.ids c) : o.Sees (buildCall g id function args) := by
  refine .bind (.of_aloof (boundName?_aloof id)) fun bound => ?_
  split
  · exact .pure _
  refine .bind (.of_aloof (registerFunction_aloof function)) fun f => .when (.fail rfl) fun _ => ?_
  refine .bind (.of_aloof (useFunction_aloof function)) fun _ => ?_
  refine .bind (.mapM fun a ha => .buildArgument hg (h a.1 (List.of_mem_zip ha).1) _ _) fun es => ?_
  refine .ite (.bind (.of_aloof (addStatement_aloof _)) fun _ => .pure _) ?_
  refine .bind (.of_aloof (declareTemp_aloof _ _ _)) fun name => ?_
  exact .bind (.bindValue hid name) fun _ => .pure _

/-! ### All nodes -/

theorem Sees.withoutValue {step : Build Unit} (h : o.Sees step) : o.Sees (withoutValue step) :=
  .bind h fun _ => .pure _

/-- The code of a node follows the references that the node follows. -/
theorem Sees.generateNode (hg : o.Runs g) (hid : o.Built id) (hn : o.plan.node id = .ok n)
    (hx : n.isExpandable = false) : o.Sees (generateNode g id n) := by
  have h : ∀ c ∈ n.children, o.ids c := fun c hc => hid.child hn hc
  have own := hid.met
  cases n with
  | const type values => exact .map _ (.of_aloof (buildConstant_aloof _ _))
  | uniform name type group update value =>
    refine .bind (.of_aloof (registerUniform_aloof id name type group update value)) fun u => ?_
    exact .map _ (.of_aloof (useUniform_aloof u.1 u.2))
  | meshAttribute name type => exact .map _ (.of_aloof (buildAttribute_aloof _ _))
  | varying source => exact .map _ (.buildVarying hg (h source (.head _)) _ _ _)
  | property name type => exact .map _ (.of_aloof (buildProperty_aloof _ _))
  | builtin b => exact .map _ (.of_aloof (useBuiltin_aloof b))
  | texture name uv level => exact .buildTemp own (.map _ (.buildTexture hg name h))
  | storageBuffer => exact .map _ (.of_aloof (buildStorage_aloof _ _ _ _))
  | var value => exact .map _ (.buildVariable hg own (h value (.head _)) _ _)
  | assign target value op =>
    exact .withoutValue (.buildAssign hg (h target (.head _)) (h value (.tail _ (.head _))) op)
  | operator op left right =>
    refine .buildTemp own (.map _ ?_)
    exact .buildOperator hg op (h left (.head _)) (h right (.tail _ (.head _)))
  | unary op operand => exact .buildTemp own (.buildUnary hg op (h operand (.head _)))
  | math method args => exact .buildTemp own (.map _ (.buildMath hg own method h))
  | split source components => exact .buildSplit hg (h source (.head _)) components
  | join parts type => exact .buildTemp own (.map _ (.buildJoin hg own h))
  | convert source target => exact .buildTemp own (.buildConvert hg (h source (.head _)) target)
  | conditional condition thenNode elseNode => exact .buildConditional hg own h
  | loop params body => exact .withoutValue (.buildLoop hg h)
  | loopIndex loop param => exact .map _ (.buildCounter hid hn)
  | jump j => exact .withoutValue (.of_aloof (buildJump_aloof j))
  | stack nodes output => exact .buildStack hg h
  | structType name members => exact .fail rfl
  | struct layout values =>
    exact .buildTemp own (.map _ (.buildStruct hg own fun c hc => h c (.tail _ hc)))
  | array element values => exact .buildTemp own (.map _ (.buildArray hg element h))
  | member base name => exact .buildMember hg (h base (.head _)) name
  | index base i => exact .buildIndex hg (h base (.head _)) (h i (.tail _ (.head _)))
  | context inner values =>
    refine .inContext (fun v hv => h v.2 ?_) (hg.emit (h inner (.head _)))
    exact .tail _ (List.mem_map_of_mem hv)
  | contextValue key fallback =>
    refine .withContextValue (fun c hc => h c ?_) fun c hc => hg.emit hc
    simpa [NodeOf.children] using hc
  | cache inner shares =>
    exact .bind (.cacheScope id shares) fun scope => .inScope scope (hg.emit (h inner (.head _)))
  | call function args => exact .buildCall hg own function h
  | remap => cases hx
  | custom => cases hx

theorem Sees.recordVisit (hid : o.ids id) (before : BuildState) (code : Option Expr) :
    o.Sees (recordVisit before id code) :=
  .read (fun _ _ => rfl) fun _ _ => .modify fun _ hs =>
    ⟨hs.types, hs.records, fun hv => (List.mem_cons.1 hv).elim (fun h => h ▸ hid) hs.visits,
      hs.sources⟩

theorem Sees.emitNode (hg : o.Runs g) (h : o.ids id) : o.Sees (emitNode g id) := by
  refine .resolve h fun m _ hm => .get fun before _ => .bind (.located hm ?_) fun code => ?_
  · exact .node hm fun n hn hx => .generateNode hg hm hn hx
  · exact .bind (.recordVisit hm.met before code) fun _ => .pure _

/-- Generation keeps to the references of the outlook, however deep it goes. -/
theorem runs_generator (fuel : Nat) : o.Runs (generator fuel) := by
  induction fuel with
  | zero => exact ⟨fun _ => .of_aloof .exhaust, fun _ => .of_aloof .exhaust⟩
  | succ fuel ih => exact ⟨fun h => .emitNode ih h, fun h => .buildPlace ih h⟩

/-- The program of a stage is generated along the references of the outlook only. -/
theorem Sees.generateStage (h : o.ids id) : o.Sees (generateStage id) := by
  refine .bind (.of_aloof .stage) fun stage => .bind ?_ fun output => .of_aloof (.modifyHere _)
  refine .bind (.of_aloof depthBound_aloof) fun fuel => ?_
  have hg : o.Runs (generator fuel) := runs_generator fuel
  cases stage with
  | vertex => exact .map _ (hg.value h _)
  | fragment => exact .map _ (hg.value h _)
  | compute => exact .bind (hg.emit h) fun e => .when (.discard (.typeOf h)) fun _ => .pure _

end Outlook

/-! ## Builds and what is below their roots -/

open Build

namespace Plan

/-- A loop index below the roots names the loop. -/
def NamesLoop (p : Plan) (roots : List NodeId) (loop : NodeId) : Prop :=
  ∃ id k, p.Below roots id ∧ p.resolve id = .ok id ∧ p.node id = .ok (.loopIndex loop k)

/-- Another plan is the same as far as what is below the roots goes; elsewhere its graph and its
replacements may be others. -/
structure AgreesBelow (p q : Plan) (roots : List NodeId) : Prop where
  options : q.options = p.options
  host : q.host = p.host
  structs : q.structs = p.structs
  updates : q.updates = p.updates
  updatesBefore : q.updatesBefore = p.updatesBefore
  kin : p.graph.Kin q.graph
  below : ∀ id, p.Below roots id → p.SameAt q id
  loops : ∀ loop, p.NamesLoop roots loop → p.SameAt q loop

variable {p q : Plan} {roots : List NodeId} {α : Type}

theorem AgreesBelow.renewed (h : p.AgreesBelow q roots) :
    p.renewed q.graph q.expansions = q := by
  obtain ⟨options, host, graph, expansions, structs, updates, updatesBefore⟩ := q
  cases h.options
  cases h.host
  cases h.structs
  cases h.updates
  cases h.updatesBefore
  rfl

theorem AgreesBelow.refl (p : Plan) (roots : List NodeId) : p.AgreesBelow p roots :=
  ⟨rfl, rfl, rfl, rfl, rfl, ⟨rfl, rfl, rfl⟩, fun _ _ => ⟨rfl, fun _ _ => rfl⟩,
    fun _ _ => ⟨rfl, fun _ _ => rfl⟩⟩

/-- What is below the roots may be followed. -/
def AgreesBelow.outlook (h : p.AgreesBelow q roots)
    (settled : ∀ id, p.Below roots id → p.IsSettled id) : Outlook where
  plan := p
  graph := q.graph
  expansions := q.expansions
  ids := p.Below roots
  kin := h.kin
  settled hid := settled _ hid
  resolved hid hm := .resolved hid hm
  children hid hm hn hc := .child hid hm hn hc
  same hid := h.renewed.symm ▸ h.below _ hid
  loops hid hm hn := h.renewed.symm ▸ h.loops _ ⟨_, _, hid, hm, hn⟩

/-- Under any contexts that lend what is below the roots, the step looks at nothing but what is
below the roots and the loops that are named there, and remembers only what is below the roots. -/
def LooksBelow (p : Plan) (roots : List NodeId) (step : Build α) : Prop :=
  ∀ q env s, p.AgreesBelow q roots → env.plan = p →
    (∀ f ∈ env.frames, ∀ v ∈ f.values, p.Below roots v.2) → s.Within (p.Below roots) →
      step { env with plan := q } s = step env s ∧
        Meets step env s (fun f => ∀ e, f = .refused e → e.cause.isUnexpanded = false)
          fun _ s' => s'.Within (p.Below roots)

end Plan

/-- A reference that leads nowhere is no node that was not replaced. -/
theorem Plan.isUnexpanded_of_error {p : Plan} {id : NodeId} {e : GraphError}
    (h : (p.resolve id >>= p.node) = .error e) : (Cause.graph e).isUnexpanded = false := by
  have ofWalk : (Cause.graph e).isOfWalk = false := by
    rcases bind_error h with hr | ⟨m, -, hn⟩
    · exact resolve_error hr
    · exact node_error hn
  exact (Bool.or_eq_false_iff.1 ofWalk).2

/-- What an outlook misses is no node that was not replaced. -/
theorem Outlook.not_unexpanded {o : Outlook} {e : BuildError} (h : o.ends (.refused e)) :
    e.cause.isUnexpanded = false := by
  by_contra hu
  rw [Bool.not_eq_false] at hu
  obtain ⟨id, loop, k, err, -, -, he, hc⟩ := h (Cause.isUnmet_of_isUnexpanded hu)
  rw [hc, Plan.isUnexpanded_of_error he] at hu
  cases hu

theorem Outlook.Sees.looksBelow {α : Type} {p : Plan} {roots : List NodeId} {step : Build α}
    (settled : ∀ id, p.Below roots id → p.IsSettled id)
    (h : ∀ q (hq : p.AgreesBelow q roots), (hq.outlook settled).Sees step) :
    p.LooksBelow roots step := by
  intro q env s hq hp hf hs
  obtain ⟨same, meets⟩ := h q hq env s ⟨hp, hf⟩ hs
  refine ⟨?_, meets.mono (fun f hends e he => ?_) fun _ _ hp => hp.1⟩
  · rw [← same]
    unfold Env.renewed
    rw [hp]
    exact congrArg (fun r => step { env with plan := r } s) hq.renewed.symm
  · subst he
    exact not_unexpanded hends

/-! ### Runs -/

namespace Outlook

variable {o : Outlook} {active : List Stage} {step : NodeId → Build Unit}

/-- The state that a part of a run leaves is within the outlook, or what is missing is a loop. -/
def Ends (o : Outlook) : Except Failure BuildState → Prop
  | .ok s => s.Within o.ids
  | .error f => o.ends f

theorem atRoots_same {rs : List (Stage × NodeId)} {s : BuildState}
    (h : ∀ r ∈ rs, o.Sees (step r.2)) (hs : s.Within o.ids) :
    atRoots (o.plan.renewed o.graph o.expansions) active step rs s =
        atRoots o.plan active step rs s ∧
      o.Ends (atRoots o.plan active step rs s) := by
  induction rs generalizing s with
  | nil => exact ⟨rfl, hs⟩
  | cons r rest ih =>
    rw [List.forall_mem_cons] at h
    have root : o.Holds (Env.root o.plan active r.1) := ⟨rfl, fun f hf => nomatch hf⟩
    obtain ⟨same, meets⟩ := h.1 _ s root hs
    have same' : step r.2 (Env.root (o.plan.renewed o.graph o.expansions) active r.1) s =
        step r.2 (Env.root o.plan active r.1) s := same
    unfold Meets at meets
    rw [atRoots, atRoots, atRoot, atRoot, same']
    cases hr : step r.2 (Env.root o.plan active r.1) s with
    | error f =>
      rw [hr] at meets
      exact ⟨rfl, meets⟩
    | ok r =>
      rw [hr] at meets
      exact ih h.2 meets.1

theorem within_start (p : Plan) (ids : NodeId → Prop) : (BuildState.start p).Within ids where
  types h := nomatch h
  records h := nomatch h
  visits h := nomatch h
  sources h := nomatch h

/-- A run goes alike with both graphs. -/
theorem run_same {rs : List (Stage × NodeId)} (h : ∀ r ∈ rs, o.ids r.2) :
    run (o.plan.renewed o.graph o.expansions) rs = run o.plan rs ∧ o.Ends (run o.plan rs) := by
  unfold run
  dsimp only
  have start : BuildState.start (o.plan.renewed o.graph o.expansions) = .start o.plan := rfl
  have looks : ∀ r ∈ rs, o.Sees (analyze r.2) := fun r hr => .analyze (h r hr)
  obtain ⟨same, ends⟩ := atRoots_same looks (within_start o.plan o.ids)
  rw [start, same]
  cases ha : atRoots o.plan (rs.map Prod.fst) analyze rs (.start o.plan) with
  | error f =>
    rw [ha] at ends
    exact ⟨rfl, ends⟩
  | ok s =>
    rw [ha] at ends
    exact atRoots_same (fun r hr => .generateStage (h r hr)) ends

end Outlook

section Runs

variable {p q : Plan} {rs : List (Stage × NodeId)}

/-- A run looks at nothing but what is below the roots and the loops that are named there. -/
theorem run_of_agreesBelow (settled : ∀ id, p.Below (rs.map Prod.snd) id → p.IsSettled id)
    (hq : p.AgreesBelow q (rs.map Prod.snd)) : run q rs = run p rs := by
  have same := (Outlook.run_same (o := hq.outlook settled)
    fun _ hr => .root (List.mem_map_of_mem hr)).1
  exact (congrArg (run · rs) hq.renewed.symm).trans same

theorem run_ends_within (settled : ∀ id, p.Below (rs.map Prod.snd) id → p.IsSettled id) :
    ((Plan.AgreesBelow.refl p (rs.map Prod.snd)).outlook settled).Ends (run p rs) :=
  (Outlook.run_same (o := (Plan.AgreesBelow.refl p _).outlook settled)
    fun _ hr => .root (List.mem_map_of_mem hr)).2

/-- No run of a plan that is settled below the roots is refused because a node was not
replaced. -/
theorem run_not_unexpanded (settled : ∀ id, p.Below (rs.map Prod.snd) id → p.IsSettled id)
    {e : BuildError} (h : run p rs = .error (.refused e)) : e.cause.isUnexpanded = false := by
  have ends := run_ends_within settled
  rw [h] at ends
  exact Outlook.not_unexpanded ends

end Runs

/-! ### Builds -/

/-- In a plan that was made all below the roots is there and nothing of it is to be replaced. -/
theorem Plan.settled_of_make {host : Host} {g : Graph} {options : BuildOptions}
    {roots : List NodeId} {p : Plan} (h : make g options roots host = .ok p) {id : NodeId}
    (hid : p.Below roots id) : p.IsSettled id :=
  settled_of_pending (pending_of_make h) hid

/-- No build is refused because a node was not replaced. -/
theorem build_not_unexpanded {host : Host} {g : Graph} {request : BuildRequest}
    {options : BuildOptions} {e : BuildError}
    (h : build g request options host = .error (.refused e)) : e.cause.isUnexpanded = false := by
  by_contra hu
  rw [Bool.not_eq_false] at hu
  obtain ⟨p, hp, hr⟩ := run_of_build h (Cause.isOfWalk_of_isUnexpanded hu)
  rw [run_not_unexpanded (fun _ => Plan.settled_of_make hp) hr] at hu
  cases hu

/-- Whatever custom nodes do to the graph when they are replaced: once a plan is made, all below
the roots is there and nothing of it is to be replaced. Analysis, types and generation look at
nothing else but loops that are named there. So no run, and no build, is refused because a node
was not replaced. -/
theorem expansion_complete {host : Host} {g : Graph} {options : BuildOptions}
    {rs : List (Stage × NodeId)} {p : Plan}
    (h : Plan.make g options (rs.map Prod.snd) host = .ok p) :
    (∀ id, p.Below (rs.map Prod.snd) id → p.IsSettled id) ∧
      (∀ id, p.Below (rs.map Prod.snd) id →
        p.LooksBelow (rs.map Prod.snd) (analyze id) ∧
          p.LooksBelow (rs.map Prod.snd) (typeOf id) ∧
          ∀ fuel, p.LooksBelow (rs.map Prod.snd) ((generator fuel).emit id) ∧
            p.LooksBelow (rs.map Prod.snd) ((generator fuel).place id)) ∧
      (∀ q, p.AgreesBelow q (rs.map Prod.snd) → run q rs = run p rs) ∧
      (∀ s, run p rs = .ok s → s.Within (p.Below (rs.map Prod.snd))) ∧
      (∀ e, run p rs = .error (.refused e) → e.cause.isUnexpanded = false) ∧
      ∀ g request options host e, build g request options host = .error (.refused e) →
        e.cause.isUnexpanded = false := by
  have settled : ∀ id, p.Below (rs.map Prod.snd) id → p.IsSettled id :=
    fun _ => Plan.settled_of_make h
  refine ⟨settled, fun id hid => ⟨?_, ?_, fun fuel => ⟨?_, ?_⟩⟩, fun q => run_of_agreesBelow settled,
    fun s hs => ?_, fun e => run_not_unexpanded settled, fun _ _ _ _ _ => build_not_unexpanded⟩
  · exact Outlook.Sees.looksBelow settled fun q hq => .analyze hid
  · exact Outlook.Sees.looksBelow settled fun q hq => .typeOf hid
  · exact Outlook.Sees.looksBelow settled fun q hq => (Outlook.runs_generator fuel).emit hid
  · exact Outlook.Sees.looksBelow settled fun q hq => (Outlook.runs_generator fuel).place hid
  · have ends := run_ends_within settled
    rw [hs] at ends
    exact ends

/-! ### A setup that no description gives -/

/-- Adds a node for the custom node, and turns the first node of the graph into another. -/
def mirror : Host :=
  { Host.plain with
    setup := fun _ g =>
      let (id, g) := g.push (.unary .neg ⟨0⟩)
      (.ok id, g.replace ⟨0⟩ (.const .float [2])) }

/-- A custom node under a context that lends another one to it, and a remap over both. -/
def mirrored : Graph := .ofNodes
  [.const .float [1], .custom (.mk "mirror" .none .none .again), .contextValue "x" none,
    .operator .add ⟨1⟩ ⟨2⟩, .context ⟨3⟩ [("x", ⟨1⟩)], .remap ⟨4⟩ ⟨0⟩ ⟨0⟩ ⟨1⟩ ⟨0⟩]

/-- Two nodes of `mirrored` are replaced, in two rounds. -/
theorem mirrored_made : ∃ p, Plan.make mirrored .standard [⟨5⟩] mirror = .ok p ∧
    p.graph.size = 13 ∧ p.expansions.get? ⟨1⟩ = some ⟨12⟩ := by
  have made : (Plan.make mirrored .standard [⟨5⟩] mirror).toOption.map (fun p =>
      (p.graph.size, p.expansions.get? ⟨1⟩)) = some (13, some ⟨12⟩) := by
    decide +kernel
  cases h : Plan.make mirrored .standard [⟨5⟩] mirror with
  | error e =>
    rw [h] at made
    cases made
  | ok p =>
    rw [h] at made
    injection made with made
    injection made with size target
    exact ⟨p, rfl, size, target⟩

theorem mirrored_expanded : ∃ p, Plan.make mirrored .standard [⟨5⟩] mirror = .ok p ∧
    p.graph.size = 13 ∧ p.expansions.get? ⟨1⟩ = some ⟨12⟩ ∧
      (∀ id, p.Below [⟨5⟩] id → p.IsSettled id) ∧ p.LooksBelow [⟨5⟩] (analyze ⟨5⟩) ∧
      ∀ e, run p [(.fragment, ⟨5⟩)] = .error (.refused e) → e.cause.isUnexpanded = false := by
  obtain ⟨p, hp, size, target⟩ := mirrored_made
  have made : Plan.make mirrored .standard
      ([(Stage.fragment, (⟨5⟩ : NodeId))].map Prod.snd) mirror = .ok p := hp
  obtain ⟨settled, looks, -, -, refused, -⟩ := expansion_complete made
  exact ⟨p, hp, size, target, settled, (looks ⟨5⟩ (.root (.head _))).1, refused⟩

end ShaderGraph
