import ShaderGraph.Build.Control
import ShaderGraph.Proofs.AddedStatements
import ShaderGraph.Proofs.Collections
import ShaderGraph.Proofs.Expansion
import ShaderGraph.Proofs.Outlook
import ShaderGraph.Proofs.ProgramNames
import ShaderGraph.Proofs.VariablesBuild

/-!
# Pure nodes and choices

`arePure` looks at all nodes below some others and finds whether one of them states something: it
misses none of them (`pure_of_below`). Generation goes further, to what a context around them lends
(`Plan.Drawn`).

A conditional with a value becomes a choice between two expressions when no node below its branches
states anything; otherwise it becomes a branch, and whatever its branches state stands in their own
blocks. A choice evaluates both sides. They state something only below a value that a context around
the conditional lends, which the search for statements does not look at, or where the vertex program
meets a varying (`choice_statements`).
-/

namespace ShaderGraph

/-! ## Pure nodes -/

open Build

namespace Plan

variable {p : Plan} {frames : List Frame} {roots : List NodeId}

/-- The references that generation may meet on the way down from the roots: what is below them, and
what the contexts around lend to the nodes below. -/
inductive Drawn (p : Plan) (frames : List Frame) (roots : List NodeId) : NodeId → Prop
  | root {r : NodeId} : r ∈ roots → Drawn p frames roots r
  | resolved {id m : NodeId} : Drawn p frames roots id → p.resolve id = .ok m →
      Drawn p frames roots m
  | child {id c : NodeId} {n : Node} : Drawn p frames roots id → p.resolve id = .ok id →
      p.node id = .ok n → c ∈ n.children → Drawn p frames roots c
  | lent {id v : NodeId} {key : String} {fallback : Option NodeId} {f : Frame} :
      Drawn p frames roots id → p.resolve id = .ok id →
      p.node id = .ok (.contextValue key fallback) → f ∈ frames → (key, v) ∈ f.values →
      Drawn p frames roots v

end Plan

namespace Build

variable {p : Plan} {frames : List Frame} {roots ids seen : List NodeId} {fuel : Nat}

/-- A search that finds nothing impure has seen all that is below the nodes it began with. -/
theorem closed_of_arePureFrom (h : arePureFrom p fuel ids seen = .ok true)
    (hf : ids.length + p.unseen seen < fuel) :
    ∃ all, seen ⊆ all ∧ (∀ id ∈ ids, ∃ m ∈ all, p.resolve id = .ok m) ∧
      ∀ m ∈ all, m ∉ seen → ∃ n, p.node m = .ok n ∧ isImpure n = false ∧
        ∀ c ∈ n.children, ∃ m' ∈ all, p.resolve c = .ok m' := by
  induction fuel generalizing ids seen with
  | zero => omega
  | succ fuel ih =>
    cases ids with
    | nil =>
      refine ⟨seen, List.Subset.refl _, fun _ hi => ?_, fun m hm hn => absurd hm hn⟩
      cases hi
    | cons id rest =>
      rw [arePureFrom] at h
      rw [List.length_cons] at hf
      split at h
      · cases h
      · next m hm =>
        split at h
        · next hs =>
          obtain ⟨all, sub, hr, hc⟩ := ih h (by omega)
          have met : m ∈ all := sub (List.contains_iff_mem.1 hs)
          exact ⟨all, sub, List.forall_mem_cons.2 ⟨⟨m, met, hm⟩, hr⟩, hc⟩
        · next hs =>
          replace hs : m ∉ seen := fun hmem => hs (List.contains_iff_mem.2 hmem)
          split at h
          · cases h
          · next n hn =>
            split at h
            · cases h
            · next hi =>
              have := Plan.unseen_cons hn hs
              obtain ⟨all, sub, hr, hc⟩ := ih h (by rw [List.length_append]; omega)
              rw [List.forall_mem_append] at hr
              refine ⟨all, fun x hx => sub (.tail _ hx),
                List.forall_mem_cons.2 ⟨⟨m, sub (.head _), hm⟩, hr.2⟩, fun m' hm' hs' => ?_⟩
              by_cases hmm : m' = m
              · exact hmm ▸ ⟨n, hn, Bool.not_eq_true _ ▸ hi, hr.1⟩
              · exact hc m' hm' fun hmem => (List.mem_cons.1 hmem).elim hmm hs'

/-- When a search that looks at everything finds nothing impure, then nothing below is. -/
theorem pure_of_below (h : arePureFrom p (roots.length + Plan.referenceCount p.graph + 1) roots [] =
      .ok true) {id : NodeId} (hid : p.Below roots id) {n : Node} (hm : p.resolve id = .ok id)
    (hn : p.node id = .ok n) : isImpure n = false := by
  obtain ⟨all, -, hr, hc⟩ := closed_of_arePureFrom h (Plan.lt_fuel p roots)
  have met : ∃ m ∈ all, p.resolve id = .ok m := by
    clear hm hn
    induction hid with
    | root hroot => exact hr _ hroot
    | resolved _ hm ih =>
      obtain ⟨m', hmem, hm'⟩ := ih
      cases hm.symm.trans hm'
      exact ⟨_, hmem, Plan.resolve_of_resolve hm⟩
    | child _ hm hn hmem ih =>
      obtain ⟨m, hm', hme⟩ := ih
      cases hm.symm.trans hme
      obtain ⟨n', hn', -, hch⟩ := hc _ hm' List.not_mem_nil
      cases hn.symm.trans hn'
      exact hch _ hmem
  obtain ⟨m, hmem, hm'⟩ := met
  cases hm.symm.trans hm'
  obtain ⟨n', hn', pure, -⟩ := hc _ hmem List.not_mem_nil
  cases hn.symm.trans hn'
  exact pure

/-- A search among nodes that are all pure finds nothing impure. -/
theorem arePureFrom_ne_false (pure : ∀ id n, p.Drawn frames roots id → p.resolve id = .ok id →
      p.node id = .ok n → isImpure n = false) (h : ∀ id ∈ ids, p.Drawn frames roots id) :
    arePureFrom p fuel ids seen ≠ .ok false := by
  induction fuel generalizing ids seen with
  | zero => rintro ⟨⟩
  | succ fuel ih =>
    cases ids with
    | nil => rintro ⟨⟩
    | cons id rest =>
      obtain ⟨hid, hrest⟩ := List.forall_mem_cons.1 h
      rw [arePureFrom]
      split
      · rintro ⟨⟩
      · next m hm =>
        split
        · exact ih hrest
        · split
          · rintro ⟨⟩
          · next n hn =>
            have own := Plan.resolve_of_resolve hm
            rw [if_neg (Bool.eq_false_iff.1 (pure m n (hid.resolved hm) own hn))]
            exact ih (List.forall_mem_append.2 ⟨fun c => (hid.resolved hm).child own hn, hrest⟩)

end Build

/-! ## Choices -/

namespace Statement

/-- Whether a statement itself assigns, calls a native function, loops, jumps or declares a
variable. -/
def acts (st : Statement) : Bool :=
  !st.callees.isEmpty || match st with
    | declare _ _ _ _ owner => owner.isSome
    | branch .. => false
    | _ => true

/-- Neither a statement nor any in its blocks acts. -/
def Harmless (st : Statement) : Prop := st.collect (fun st => if st.acts then [st] else []) = []

theorem collectIn_eq_nil {α : Type} {f : Statement → List α} {ss : List Statement}
    (h : ∀ st ∈ ss, st.collect f = []) : collectIn f ss = [] := by
  induction ss with
  | nil => rfl
  | cons st rest ih =>
    obtain ⟨first, others⟩ := List.forall_mem_cons.1 h
    rw [collectIn, first, ih others, List.append_nil]

theorem harmless_of {st : Statement} (ha : st.acts = false) (hb : ∀ st' ∈ st.blocks, st'.Harmless) :
    st.Harmless := by
  unfold Harmless
  rw [collect_eq, collectIn_eq_nil hb, ha]
  rfl

/-- The declaration of a numbered name. -/
theorem harmless_declare {name : String} {type : ValueType} {init : Expr} {m : Mutability}
    (h : init.Silent) : (declare name type (some init) m none).Harmless := by
  refine harmless_of ?_ fun _ hst => nomatch hst
  unfold acts
  rw [declare_callees (silentCode_some h)]
  rfl

theorem harmless_branch {condition : Expr} {ss ss' : List Statement} (hc : condition.Silent)
    (h : ∀ st ∈ ss ++ ss', st.Harmless) : (branch condition ss (some ss')).Harmless := by
  have callees : (branch condition ss (some ss')).callees = [] := hc
  refine harmless_of ?_ h
  unfold acts
  rw [callees]
  rfl

theorem not_harmless_of_acts {st : Statement} (h : st.acts = true) : ¬st.Harmless := by
  unfold Harmless
  rw [collect_eq, h]
  exact List.cons_ne_nil _ _

end Statement

/-- The statements that a step adds to a stage `t` are harmless. -/
def Build.harmlessIn (t : Stage) (_ u : Stage) (st : Statement) : Prop := u = t → st.Harmless

namespace Plan

/-- Nothing that generation meets below some nodes in a stage adds statements. -/
def Calm (p : Plan) (t : Stage) (frames : List Frame) (roots : List NodeId) : Prop :=
  ∀ m n, p.Drawn frames roots m → p.resolve m = .ok m → p.node m = .ok n →
    isImpure n = false ∧ (t = .vertex → n.isVarying = false)

/-- What contexts lend to the nodes below is met on the way. -/
def Lends (p : Plan) (frames : List Frame) (roots : List NodeId) (inner : List Frame) : Prop :=
  ∀ f ∈ inner, ∀ v ∈ f.values, ∀ id fallback, p.Drawn frames roots id → p.resolve id = .ok id →
    p.node id = .ok (.contextValue v.1 fallback) → p.Drawn frames roots v.2

end Plan

namespace Build

open Law

variable {p : Plan} {t : Stage} {o : ScopeId} {frames : List Frame} {roots : List NodeId} {env : Env}
  {s : BuildState} {id m : NodeId} {n : Node} {g : Generator} {fuel : Nat}

theorem lends_self : p.Lends frames roots frames :=
  fun _ hf _ hv _ _ hid hm hn => hid.lent hm hn hf hv

theorem harmless_up (e u : Stage) (st : Statement) (h : harmlessIn t .vertex u st) :
    harmlessIn t e u st := h

theorem harmless_sited : Law.Sited p (Law.adding p (harmlessIn t)) := adding_sited harmless_up

/-! ### Nodes that state nothing -/

/-- A conditional whose branches state nothing. -/
theorem buildConditional_harmless (hg : g.Silent)
    (pure : ∀ id n, p.Drawn frames roots id → p.resolve id = .ok id → p.node id = .ok n →
      isImpure n = false)
    (plan : env.plan = p) {condition thenNode elseNode : NodeId}
    (drawn : ∀ c ∈ [thenNode, elseNode], p.Drawn frames roots c)
    (h : ∀ c ∈ [condition, thenNode, elseNode], (Law.adding p (harmlessIn t) t o).Serves env g c) :
    (Law.adding p (harmlessIn t) t o).Keeps env
      (buildConditional g id condition thenNode (some elseNode)) := by
  have ht := h thenNode (.tail _ (.head _))
  have he := h elseNode (.tail _ (.tail _ (.head _)))
  have value := (h condition (.head _)).value .bool
  refine .bind (.boundName? id) fun bound => ?_
  split
  · exact .pure _
  refine .bind (harmless_sited.typeOf id) fun type => ?_
  refine .using (value.yields (value_silent hg condition .bool)) fun c hc => ?_
  dsimp only
  refine .ite (fun _ => ?_) fun _ => ?_
  · exact holdBoth_adding (inBlock_adding ht.statement) (inBlock_adding he.statement)
      (fun _ _ all _ => Statement.harmless_branch hc fun st hst => all st hst rfl) fun _ => .pure _
  · have found : (Law.adding p (harmlessIn t) t o).Yields env (arePure [thenNode, elseNode])
        fun b => b = true := by
      refine .read (.ofExcept (fun _ => arePureFrom_error) fun b hb => ?_)
      cases b with
      | true => rfl
      | false => exact absurd (plan ▸ hb) (arePureFrom_ne_false pure drawn)
    refine .using found fun b hb => ?_
    rw [if_pos hb]
    refine buildTemp_adding harmless_up (fun _ _ _ hs _ => Statement.harmless_declare hs) ?_ ?_
    · exact .bind (ht.value _) fun t => .bind (he.value _) fun e => .pure _
    · exact .after (value_silent hg thenNode type) fun t ht =>
        .after (value_silent hg elseNode type) fun e he =>
          .pure (silentCode_some (hc.select ht he))

/-- What happens in the vertex program does not concern another stage. -/
theorem buildVarying_harmless (ht : t ≠ .vertex) {source : NodeId} {name : Option String}
    {interpolation : Interpolation} {sampling : Option Sampling}
    (hn : p.node id = .ok (.varying source name interpolation sampling)) :
    (Law.adding p (harmlessIn t) t o).Keeps env
      (buildVarying (generator fuel) id source name interpolation sampling) := by
  have serves : (Law.adding p reached .vertex o).Serves (within env .vertex) (generator fuel) source :=
    reached_sited.serves (generator_reaches fuel .vertex o)
  have hL := harmless_sited (p := p) (t := t)
  refine .buildVarying (M := Law.adding p reached .vertex o)
    (fun v type => .assignVarying (fun _ _ => add_adding (.inl rfl) rfl)
      (reached_sited.unmoved.tabular.mark id) serves v type) (hL.unmoved.tabular.mark id)
    (fun h => ?_) (fun _ _ h => h) (fun _ _ _ _ h => h) (fun s hs => ?_) fun v s hs hv => ?_
  · refine h.inStage (fun s hi => ⟨hi.1.within .vertex, stage_within env .vertex⟩)
      (fun s s' hr => ⟨hr.1, fun _ hst => absurd hst List.not_mem_nil, fun u => ?_⟩) fun f _ => trivial
    refine (hr.2.2 u).mono fun st hst hu => ?_
    subst hu
    exact absurd (or_self_iff.1 hst) ht
  · refine (registerVarying_still hn hs.1.regular.varyings).mono (fun _ _ => trivial) ?_
    exact fun v s' hr => ⟨hL.quiet hs (.of_entering hr.1) (.of_entering hr.1), hr.2⟩
  · have locate : (Law.enteringVarying p).Keeps env (locateVarying id v) :=
      locateVarying_entering (hv ▸ hn)
    refine (locate s trivial).mono (fun _ _ => trivial) fun _ s' hr => ?_
    exact hL.quiet hs (.of_entering hr) (.of_entering hr)

/-- What generation adds below some nodes of which each states nothing. -/
def ServesCalm (p : Plan) (t : Stage) (frames : List Frame) (roots : List NodeId) (g : Generator) :
    Prop :=
  ∀ o env id, env.plan = p → p.Lends frames roots env.frames → p.Drawn frames roots id →
    (Law.adding p (harmlessIn t) t o).Serves env g id

/-- The code of a node that states nothing, from that of the nodes below it. -/
theorem generateNode_harmless (calm : p.Calm t frames roots)
    (hg : ServesCalm p t frames roots (generator fuel)) (plan : env.plan = p)
    (lends : p.Lends frames roots env.frames) (hid : p.Drawn frames roots id)
    (hm : p.resolve id = .ok id) (hn : p.node id = .ok n) :
    (Law.adding p (harmlessIn t) t o).Keeps env (generateNode (generator fuel) id n) := by
  have hL := harmless_sited (p := p) (t := t)
  obtain ⟨hp, hv⟩ := calm id n hid hm hn
  have below : ∀ c ∈ n.children,
      (Law.adding p (harmlessIn t) t o).Serves env (generator fuel) c := fun c hc =>
    hg o env c plan lends (hid.child hm hn hc)
  cases hspecial : n.isSpecial with
  | false =>
    refine .generatePlain hL.unmoved.tabular.plain hspecial hp below (fun step hc => ?_) ?_
    · refine buildTemp_adding harmless_up (fun _ _ _ hs _ => Statement.harmless_declare hs) ?_
        (computation_silent (generator_silent fuel) hc)
      exact .computation hL.unmoved.tabular.plain (hL.typeOf id) below hc
    · rintro condition thenNode elseNode rfl
      exact buildConditional_harmless (generator_silent fuel)
        (fun m n hdrawn hm hn => (calm m n hdrawn hm hn).1) plan
        (fun c hc => hid.child hm hn (.tail _ hc)) below
  | true =>
    cases n with
    | var => cases hp
    | varying source name interpolation sampling =>
      exact .map _ (buildVarying_harmless (fun h => nomatch hv h) hn)
    | context inner values =>
      intro s hi
      show Meets (inContext id values _) _ s _ _
      rw [meets_inContext]
      let extended := s.frames.extend (Frame.current env.frames) id
      have grown := hL.quiet hi (.frames extended.2) (.frames extended.2)
      -- the values that the node lends are below it
      have lends' : p.Lends frames roots (inside env extended.1 values).frames := by
        intro f hf v hv id' fallback hid' hm' hn'
        rcases List.mem_cons.1 hf with rfl | hf
        · exact hid.child hm hn (.tail _ (List.mem_map_of_mem hv))
        · exact lends f hf v hv id' fallback hid' hm' hn'
      have serves := hg o (inside env extended.1 values) inner plan lends'
        (hid.child hm hn (.head _))
      have hi' := (Law.adding p (harmlessIn t) t o).mono hi grown
      refine (serves.emit' _ ⟨hi'.1.inside extended.1 values, hi'.2⟩).imp fun _ _ hr => ?_
      exact (Law.adding p (harmlessIn t) t o).trans grown hr
    | contextValue key fallback =>
      intro s hi
      show Meets (withContextValue key fallback _) _ s _ _
      rw [meets_withContextValue]
      split
      · next c outer hlookup =>
        obtain ⟨f, hf, hv⟩ := Outlook.mem_of_lookup? hlookup
        have serves := hg o { env with frames := outer } c plan
          (fun f hf => lends f ((Frame.lookup?_suffix hlookup).subset hf))
          (lends f hf _ hv id _ hid hm hn)
        exact serves.emit' s ⟨hi.1.frames outer, hi.2⟩
      · exact (below _ (.head _)).emit' s hi
      · trivial
    | cache inner shares =>
      intro s hi
      unfold generateNode
      rw [meets_bind, meets_cacheScope, meets_inScope]
      obtain ⟨advances, placed'⟩ := hi.1.cacheScope hn rfl
      have grown := hL.quiet hi advances .scopeFor
      let scope := (s.cache.scopeFor env.scope id shares).1
      have serves := hg (if shares then o else scope) { env with scope := scope } inner plan lends
        (hid.child hm hn (.head _))
      refine (serves.emit' _ ⟨placed', hi.2⟩).imp fun _ s' hr => ?_
      exact (Law.adding p (harmlessIn t) t o).trans grown (hL.scope hr)
    | _ => cases hspecial

/-- Below nodes that state nothing generation adds harmless statements only. -/
theorem generator_serves_calm (calm : p.Calm t frames roots) (fuel : Nat) :
    ServesCalm p t frames roots (generator fuel) := by
  have hL := harmless_sited (p := p) (t := t)
  induction fuel with
  | zero =>
    exact fun _ _ _ _ _ _ => ⟨fun _ _ _ _ _ => trivial, fun _ _ _ => trivial, fun _ m _ => hL.typeOf m⟩
  | succ fuel ih =>
    intro o env id plan lends hid
    have drawn : ∀ m, m = id ∨ env.plan.resolve id = .ok m → p.Drawn frames roots m := by
      rintro m (rfl | hm)
      · exact hid
      · exact hid.resolved (plan ▸ hm)
    refine ⟨fun l m hm => .resolve fun m' hm' => ?_, fun l => ?_, fun l m _ => hL.typeOf m⟩
    · have hdrawn := (drawn m hm).resolved (plan ▸ hm')
      have own := Plan.resolve_of_resolve (plan ▸ hm')
      refine .get fun s => .bind (.located (.node fun n hn => ?_)) fun code => ?_
      · exact generateNode_harmless calm ih plan lends hdrawn own (plan ▸ hn)
      · exact .bind (.read fun _ _ => adding_of_stack (.of_eq rfl rfl rfl) fun _ => rfl) fun _ => .pure _
    · refine .ofKeeps (.resolve fun m hm => .located (.node fun n hn => ?_)) fun _ => trivial
      have hdrawn := (drawn id (.inl rfl)).resolved (plan ▸ hm)
      have own := Plan.resolve_of_resolve (plan ▸ hm)
      refine .bind (hL.typeOf m) fun type => ?_
      refine .bind (.placeOf hL.unmoved.tabular.plain ?_ fun c hc => ?_) fun _ => .pure _
      · exact (ih o { env with loops := l } m plan lends hdrawn).emit'
      · exact ih o { env with loops := l } c plan lends (hdrawn.child own (plan ▸ hn) hc)

/-! ### Conditionals with a value -/

/-- A branch adds the declaration of its result and itself. -/
theorem branch_statements (placed : Placed p o env s) {type : ValueType} {condition : Expr}
    (thenNode elseNode : NodeId) : Meets (do
        let result ← declareTemp type none .mutable
        let t ← buildBranch (generator fuel) result type thenNode
        let e ← buildBranch (generator fuel) result type elseNode
        addStatement (.branch condition t (some e))
        bindValue id result
        return some (localName result)) env s (fun _ => True)
      fun code s' => ∃ result t e, code = some (localName result) ∧
        (s'.stages.get env.stage).stack = Block.extend
          [.declare result type none .mutable none, .branch condition t (some e)]
          (s.stages.get env.stage).stack := by
  let L := Law.adding p reached env.stage o
  have side : ∀ result c, L.Keeps env (do
      addStatement (.assign (localName result) (← (generator fuel).value c type))) := fun _ c =>
    .bind ((reached_sited.serves (generator_reaches fuel env.stage o)).value type) fun _ =>
      add_adding (.inl rfl) rfl
  rw [meets_bind]
  refine (meets_declareTemp placed type none .mutable).imp fun result s₁ ⟨placed₁, h₁⟩ => ?_
  rw [meets_bind]
  refine (meets_inBlock_adding (side result thenNode) ⟨placed₁, rfl⟩).imp fun t s₂ ⟨h₂, same₂⟩ => ?_
  have placed₂ := placed₁.mono h₂.1
  rw [meets_bind]
  refine (meets_inBlock_adding (side result elseNode) ⟨placed₂, rfl⟩).imp fun e s₃ ⟨h₃, same₃⟩ => ?_
  rw [meets_bind]
  unfold addStatement
  rw [meets_modifyHere, meets_bind]
  refine ⟨result, t, e, rfl, ?_⟩
  show ((s₃.stages.modify env.stage _).get env.stage).stack = _
  rw [PerStage.get_modify, if_pos rfl, StageBuild.stack_add, same₃, same₂, h₁, Block.extend_extend]
  rfl

/-- A conditional with a value becomes a choice or a branch, as the search for statements below its
two sides finds.

* A branch adds the declaration of its result and itself to the open block, and nothing else.
* A choice adds harmless statements only, unless generation meets a node that the search misses:
  one that states something and is not below the two sides but below a value that a context around
  lends, or a varying in the vertex program. -/
theorem choice_statements {type : ValueType} {condition : Expr} (hc : condition.Silent)
    (placed : Placed p o env s) (thenNode elseNode : NodeId) :
    Meets (buildChoice (generator fuel) id type condition thenNode elseNode) env s (fun _ => True)
      fun code s' => ∃ pure, arePure [thenNode, elseNode] env s = .ok (pure, s) ∧
        (pure = false → ∃ result t e, code = some (localName result) ∧
          (s'.stages.get env.stage).stack = Block.extend
            [.declare result type none .mutable none, .branch condition t (some e)]
            (s.stages.get env.stage).stack) ∧
        (pure = true →
          (s.stages.get env.stage).Extends Statement.Harmless (s'.stages.get env.stage) ∨
          ∃ m n, p.Drawn env.frames [thenNode, elseNode] m ∧ p.resolve m = .ok m ∧
            p.node m = .ok n ∧ (isImpure n = true ∧ ¬p.Below [thenNode, elseNode] m ∨
              env.stage = .vertex ∧ n.isVarying = true)) := by
  obtain rfl := placed.plan
  unfold buildChoice
  rw [meets_bind]
  have search : ∀ r, arePureFrom env.plan
      (2 + Plan.referenceCount env.plan.graph + 1) [thenNode, elseNode] [] = r →
        arePure [thenNode, elseNode] env s = (Build.ofExcept r : Build Bool) env s := by
    rintro r rfl
    rfl
  cases hr : arePureFrom env.plan (2 + Plan.referenceCount env.plan.graph + 1)
      [thenNode, elseNode] [] with
  | error f => exact (meets_of_error (search _ hr)).2 trivial
  | ok pure =>
    refine (meets_of_ok (search _ hr)).2 ?_
    cases pure with
    | false =>
      refine (branch_statements placed thenNode elseNode).imp fun code s' h => ?_
      exact ⟨false, search _ hr, fun _ => h, nofun⟩
    | true =>
      by_cases calm : env.plan.Calm env.stage env.frames [thenNode, elseNode]
      · have serves : ∀ c ∈ [thenNode, elseNode],
            (Law.adding env.plan (harmlessIn env.stage) env.stage o).Serves env (generator fuel) c :=
          fun c hc => generator_serves_calm calm fuel o env c rfl lends_self (.root hc)
        have hg := generator_silent fuel
        have keeps : (Law.adding env.plan (harmlessIn env.stage) env.stage o).Keeps env
            (buildTemp id do
              let t ← (generator fuel).value thenNode type
              let e ← (generator fuel).value elseNode type
              return some (.select condition t e)) := by
          refine buildTemp_adding harmless_up
            (fun _ _ _ hs _ => Statement.harmless_declare hs) ?_ ?_
          · exact .bind ((serves _ (.head _)).value _) fun t =>
              .bind ((serves _ (.tail _ (.head _))).value _) fun e => .pure _
          · exact .after (value_silent hg thenNode type) fun t ht =>
              .after (value_silent hg elseNode type) fun e he =>
                .pure (silentCode_some (hc.select ht he))
        refine (keeps s ⟨placed, rfl⟩).imp fun code s' hr' => ?_
        refine ⟨true, search _ hr, nofun, fun _ => .inl ?_⟩
        exact (hr'.2.2 env.stage).mono fun st hst => hst rfl
      · refine (meets_true _).imp fun code s' _ => ⟨true, search _ hr, nofun, fun _ => ?_⟩
        simp only [Plan.Calm, not_forall] at calm
        obtain ⟨m, n, hdrawn, hm, hn, stating⟩ := calm
        refine .inr ⟨m, n, hdrawn, hm, hn, ?_⟩
        by_cases hi : isImpure n = true
        · refine .inl ⟨hi, fun below => ?_⟩
          cases hi.symm.trans (pure_of_below hr below hm hn)
        · refine .inr ?_
          by_contra other
          refine stating ⟨Bool.not_eq_true _ ▸ hi, fun hv => ?_⟩
          exact Bool.eq_false_iff.2 fun varying => other ⟨hv, varying⟩

/-- A conditional between a node and a constant, under a context that lends the result of a native
function. -/
def chosen (thenNode : NodeId) : Graph :=
  { Graph.ofNodes [.const .float [1], .call ⟨0⟩ [⟨0⟩], .contextValue "x" none, .const .bool [1],
      .conditional ⟨3⟩ thenNode (some ⟨0⟩), .context ⟨4⟩ [("x", ⟨1⟩)]] with
    functions := #[⟨"float f(float x) \x7b return x; \x7d", .glsl, []⟩] }

/-- The plan of `chosen`. -/
def chosenPlan (thenNode : NodeId) : Plan := .ofGraph (chosen thenNode) (.ofDialect .glsl)

/-- A conditional between a call and a constant adds its result and a branch that holds the call. -/
theorem chosen_statements : ∃ code s',
    buildChoice (generator 4) ⟨4⟩ .float (.literal .bool 1) ⟨1⟩ ⟨0⟩
      (Env.root (chosenPlan ⟨1⟩) [.fragment] .fragment) (.start (chosenPlan ⟨1⟩)) = .ok (code, s') ∧
    ∃ result t e, code = some (localName result) ∧ (s'.stages.get .fragment).stack =
      [⟨⟨0⟩, [.declare result .float none .mutable none, .branch (.literal .bool 1) t (some e)]⟩] := by
  have succeeds : (buildChoice (generator 4) ⟨4⟩ .float (.literal .bool 1) ⟨1⟩ ⟨0⟩
      (Env.root (chosenPlan ⟨1⟩) [.fragment] .fragment) (.start (chosenPlan ⟨1⟩))).isOk = true := by
    decide +kernel
  have impure : (arePure [⟨1⟩, ⟨0⟩] (Env.root (chosenPlan ⟨1⟩) [.fragment] .fragment)
      (.start (chosenPlan ⟨1⟩))).toOption.map Prod.fst = some false := by
    decide +kernel
  obtain ⟨⟨code, s'⟩, ok⟩ := ok_of_isOk succeeds
  refine ⟨code, s', ok, ?_⟩
  obtain ⟨pure, hpure, branch, -⟩ := (choice_statements (Expr.silent_literal .bool 1)
    (.root (scoped_start (chosenPlan ⟨1⟩)) [.fragment] .fragment) ⟨1⟩ ⟨0⟩).post ok
  rw [hpure] at impure
  exact branch (Option.some.inj impure)

/-- Whether an expression is a choice. -/
def isChoice : Option Expr → Bool
  | some (.select ..) => true
  | _ => false

theorem of_isChoice {code : Option Expr} (h : isChoice code = true) :
    ∃ c t e, code = some (.select c t e) := by
  unfold isChoice at h
  split at h
  · exact ⟨_, _, _, rfl⟩
  · cases h

/-- A choice runs a call that a context around it lends to one of its sides. -/
theorem chosen_calls :
    (build (chosen ⟨2⟩) ⟨none, some ⟨5⟩, none⟩ (.ofDialect .glsl)).isOk = true ∧
      ∃ s, run (chosenPlan ⟨2⟩) [(.fragment, ⟨5⟩)] = .ok s ∧
        (∃ v ∈ s.visits, v.key.node = ⟨4⟩ ∧ v.entry.inner = [] ∧ v.entry.outer.statements = [] ∧
          ∃ c t e, v.code = some (.select c t e)) ∧
        ∃ st ∈ (s.stages.get .fragment).outer.statements, ¬st.Harmless := by
  have found : leaves (fun s => (s.visits.any fun v => v.key.node = ⟨4⟩ && (v.entry.inner.isEmpty &&
        (v.entry.outer.statements.isEmpty && isChoice v.code))) &&
          (s.stages.get .fragment).outer.statements.any Statement.acts)
      (run (chosenPlan ⟨2⟩) [(.fragment, ⟨5⟩)]) = true := by
    decide +kernel
  obtain ⟨s, hs, both⟩ := of_leaves found
  obtain ⟨visited, stated⟩ := Bool.and_eq_true_iff.1 both
  obtain ⟨v, hv, h⟩ := List.any_eq_true.1 visited
  simp only [Bool.and_eq_true, decide_eq_true_eq, List.isEmpty_iff] at h
  obtain ⟨node, inner, outer, choice⟩ := h
  obtain ⟨st, hst, acts⟩ := List.any_eq_true.1 stated
  exact ⟨by decide +kernel, s, hs, ⟨v, hv, node, inner, outer, of_isChoice choice⟩, st, hst,
    Statement.not_harmless_of_acts acts⟩

end Build

end ShaderGraph
