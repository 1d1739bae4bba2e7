import ShaderGraph.Proofs.CallWalk
import ShaderGraph.Proofs.Generation
import ShaderGraph.Proofs.ScopedState

/-!
# Statements that steps add

A step puts its statements at the end of the innermost open block of a stage and leaves the blocks
around as they are (`StageBuild.Extends`); a block that it opens is closed again. The laws
`Law.adding` speak of the statements that are added. In general only the stage of the step and the
vertex program get any (`generator_reaches`).
-/

namespace ShaderGraph

open Build

/-- The innermost open block of a stage gets statements of a kind, and nothing else happens to the
open blocks. -/
def StageBuild.Extends (P : Statement → Prop) (b b' : StageBuild) : Prop :=
  ∃ new, (∀ st ∈ new, P st) ∧ b'.stack = Block.extend new b.stack

namespace StageBuild.Extends

variable {P Q : Statement → Prop} {b b' b'' : StageBuild} {st : Statement}

theorem of_stack (h : b'.stack = b.stack) : b.Extends P b' :=
  ⟨[], fun _ hst => (nomatch hst), h.trans (Block.extend_nil _).symm⟩

theorem refl (b : StageBuild) : b.Extends P b := of_stack rfl

theorem trans (h : b.Extends P b') (h' : b'.Extends P b'') : b.Extends P b'' := by
  obtain ⟨new, all, stack⟩ := h
  obtain ⟨new', all', stack'⟩ := h'
  refine ⟨new ++ new', List.forall_mem_append.2 ⟨all, all'⟩, ?_⟩
  rw [stack', stack, Block.extend_extend]

theorem mono (h : b.Extends P b') (hp : ∀ st, P st → Q st) : b.Extends Q b' :=
  ⟨h.choose, fun st hst => hp st (h.choose_spec.1 st hst), h.choose_spec.2⟩

theorem add (b : StageBuild) (hp : P st) : b.Extends P (b.add st) :=
  ⟨[st], fun _ hst => List.mem_singleton.1 hst ▸ hp, stack_add b st⟩

/-- Where no statement is of the kind nothing is added. -/
theorem stack_eq (h : b.Extends (fun _ => False) b') : b'.stack = b.stack := by
  obtain ⟨new, none, stack⟩ := h
  rw [stack, List.eq_nil_iff_forall_not_mem.2 none, Block.extend_nil]

/-- A block that was opened and filled is closed. -/
theorem closeBlock (h : b.openBlock.Extends P b') :
    b'.closeBlock.stack = b.stack ∧ ∀ st ∈ b'.innerStatements, P st := by
  obtain ⟨new, all, stack⟩ := h
  obtain ⟨closed, held⟩ := closeBlock_stack (stack.trans rfl) b.stack_ne_nil
  rw [held]
  exact ⟨closed, all⟩

end StageBuild.Extends

/-- Laws about the statements that a step in the stage `e` adds to the blocks of a stage `u`: they
are of the kind `P e u`. -/
def Law.adding (p : Plan) (P : Stage → Stage → Statement → Prop) (e : Stage) (o : ScopeId) : Law where
  inv env s := Placed p o env s ∧ env.stage = e
  rel ss s s' := s.Advances p s' ∧ (∀ st ∈ ss, P e e st) ∧
    ∀ u, (s.stages.get u).Extends (P e u) (s'.stages.get u)
  ends _ := True
  refl s := ⟨.refl s, fun _ hst => (nomatch hst), fun _ => .refl _⟩
  trans h h' := ⟨h.1.trans h'.1, List.forall_mem_append.2 ⟨h.2.1, h'.2.1⟩,
    fun u => (h.2.2 u).trans (h'.2.2 u)⟩
  mono hi hr := ⟨hi.1.mono hr.1, hi.2⟩
  loops := Placed.loops_of_stage
  ordinary _ := trivial
  located _ := trivial

namespace Build

open Law StageBuild

variable {p : Plan} {P : Stage → Stage → Statement → Prop} {e : Stage} {o : ScopeId} {env : Env}
  {s s' : BuildState} {id : NodeId} {st : Statement}

/-- A change that the open blocks do not see. -/
theorem adding_of_stack (ha : s.Advances p s')
    (hs : ∀ u, (s'.stages.get u).stack = (s.stages.get u).stack) :
    (Law.adding p P e o).rel [] s s' :=
  ⟨ha, fun _ hst => (nomatch hst), fun u => .of_stack (hs u)⟩

theorem adding_sited (up : ∀ e u st, P .vertex u st → P e u st) : Law.Sited p (Law.adding p P) where
  site hi := hi
  move _ placed he := ⟨placed, he⟩
  quiet _ ha hq := adding_of_stack ha fun u => by
    unfold StageBuild.stack
    rw [hq.inner, hq.outer]
  scope h := h
  write h := ⟨h.1, fun _ hst => (nomatch hst), fun u => (h.2.2 u).mono (up _ u)⟩
  ends _ := trivial

/-- A statement of the right kind is added, whose blocks were built before. -/
theorem meets_add_adding (hi : (Law.adding p P e o).inv env s) (hp : P e e st)
    (h : (Law.adding p P e o).rel st.blocks s s') :
    Meets (addStatement st) env s' (fun _ => True) fun _ s'' =>
      (Law.adding p P e o).rel [] s s'' := by
  obtain ⟨-, rfl⟩ := hi
  refine ⟨h.1.trans (.of_eq rfl rfl rfl), fun _ hst => (nomatch hst), fun u => ?_⟩
  refine (h.2.2 u).trans ?_
  show (s'.stages.get u).Extends _ ((s'.stages.modify env.stage fun b => b.add st).get u)
  rw [PerStage.get_modify]
  split
  · next hu => exact .add _ (hu ▸ hp)
  · exact .refl _

theorem add_adding (hp : P e e st) (hb : st.blocks = []) :
    (Law.adding p P e o).Keeps env (addStatement st) :=
  fun s hi => meets_add_adding hi hp (hb ▸ (Law.adding p P e o).refl s)

/-- A step in a block of its own adds nothing to the open block. -/
theorem meets_inBlock_adding {step : Build Unit} (h : (Law.adding p P e o).Keeps env step)
    (hi : (Law.adding p P e o).inv env s) :
    Meets (inBlock step) env s (fun _ => True) fun ss s' => (Law.adding p P e o).rel ss s s' ∧
      (s'.stages.get env.stage).stack = (s.stages.get env.stage).stack := by
  obtain ⟨placed, rfl⟩ := hi
  unfold inBlock
  rw [meets_bind, meets_modifyHere, meets_bind]
  have opened : s.Advances p
      { s with stages := s.stages.modify env.stage StageBuild.openBlock } := .of_eq rfl rfl rfl
  refine (h _ ⟨placed.mono opened, rfl⟩).imp fun _ s' hr => ?_
  rw [meets_bind, meets_here, meets_bind, meets_modifyHere, meets_pure]
  have inner := hr.2.2 env.stage
  rw [PerStage.get_modify, if_pos rfl] at inner
  obtain ⟨closed, all⟩ := inner.closeBlock
  have same : ((s'.stages.modify env.stage StageBuild.closeBlock).get env.stage).stack =
      (s.stages.get env.stage).stack := by
    rw [PerStage.get_modify, if_pos rfl]
    exact closed
  refine ⟨⟨(opened.trans hr.1).trans (.of_eq rfl rfl rfl), all, fun u => ?_⟩, same⟩
  by_cases hu : u = env.stage
  · subst hu
    exact .of_stack same
  · have outer := hr.2.2 u
    show (s.stages.get u).Extends _ ((s'.stages.modify env.stage StageBuild.closeBlock).get u)
    rw [PerStage.get_modify, if_neg hu] at outer ⊢
    exact outer

theorem inBlock_adding {step : Build Unit} (h : (Law.adding p P e o).Keeps env step) :
    (Law.adding p P e o).Leaves env (inBlock step) :=
  fun _ hi => (meets_inBlock_adding h hi).imp fun _ _ hr => hr.1

theorem bindName_adding (name : String) (frame : Option FrameId) :
    (Law.adding p P e o).Keeps env (bindName id name frame) :=
  fun _ _ => adding_of_stack (.of_eq rfl rfl rfl) fun _ => rfl

/-! ### Temporaries and branches -/

theorem declareTemp_adding (up : ∀ e u st, P .vertex u st → P e u st) {type : ValueType}
    {init : Option Expr} {m : Mutability} (hp : ∀ name, P e e (.declare name type init m none)) :
    (Law.adding p P e o).Keeps env (declareTemp type init m) := by
  have tabular : (Law.adding p P e o).Tabular True := (adding_sited up).unmoved.tabular
  refine .bind (tabular.plain.useType type) fun _ => ?_
  refine .bind (tabular.keeps fun _ => claimTemp_tables) fun name => ?_
  exact .bind (add_adding (hp name) rfl) fun _ => .pure _

/-- The declaration of a numbered name is all that is added for it. -/
theorem meets_declareTemp (placed : Placed p o env s) (type : ValueType) (init : Option Expr)
    (m : Mutability) : Meets (declareTemp type init m) env s (fun _ => True) fun name s' =>
      Placed p o env s' ∧ (s'.stages.get env.stage).stack =
        Block.extend [.declare name type init m none] (s.stages.get env.stage).stack := by
  -- what comes before adds no statement of any kind
  let L := Law.adding p (fun _ _ _ => False) env.stage o
  have tabular : L.Tabular True := (adding_sited fun _ _ _ h => h).unmoved.tabular
  have type' : L.Keeps env (useType type) := tabular.plain.useType type
  have claim : L.Keeps env claimTemp := tabular.keeps fun _ => claimTemp_tables
  unfold declareTemp
  rw [meets_bind]
  refine (type' s ⟨placed, rfl⟩).imp fun _ s₁ h₁ => ?_
  have placed₁ := placed.mono h₁.1
  rw [meets_bind]
  refine (claim s₁ ⟨placed₁, rfl⟩).imp fun name s₂ h₂ => ?_
  have same := (h₂.2.2 env.stage).stack_eq.trans (h₁.2.2 env.stage).stack_eq
  rw [meets_bind]
  unfold addStatement
  rw [meets_modifyHere, meets_pure]
  refine ⟨(placed₁.mono h₂.1).mono (.of_eq rfl rfl rfl), ?_⟩
  show ((s₂.stages.modify env.stage _).get env.stage).stack = _
  rw [PerStage.get_modify, if_pos rfl, StageBuild.stack_add, same]

/-- A value that may get a name, where the declaration of the name is of the right kind. -/
theorem buildTemp_adding (up : ∀ e u st, P .vertex u st → P e u st) {step : Build (Option Expr)}
    (hp : ∀ name type init, init.Silent → P e e (.declare name type (some init) .immutable none))
    (h : (Law.adding p P e o).Keeps env step) (hc : Returns SilentCode step) :
    (Law.adding p P e o).Keeps env (buildTemp id step) := by
  refine .bind (.boundName? id) fun bound => ?_
  split
  · exact .pure _
  refine .using (h.yields hc) fun code silent => ?_
  refine .bind ((adding_sited up).typeOf id) fun type => ?_
  cases code with
  | none => exact .pure _
  | some e =>
    refine .bind (.usage id) fun count => .ite (fun _ => .pure _) fun _ => ?_
    refine .bind (declareTemp_adding up fun name => hp name type e (silent e rfl)) fun name => ?_
    exact .bind (.read (bindName_adding name _)) fun _ => .pure _

/-- Two blocks are built and a branch is added that holds them. -/
theorem holdBoth_adding {α : Type} {condition : Expr} {t f : Build (List Statement)}
    {next : Unit → Build α} (ht : (Law.adding p P e o).Leaves env t)
    (hf : (Law.adding p P e o).Leaves env f)
    (hp : ∀ ss ss', (∀ st ∈ ss ++ ss', P e e st) → P e e (.branch condition ss (some ss')))
    (hn : ∀ u, (Law.adding p P e o).Keeps env (next u)) :
    (Law.adding p P e o).Keeps env (t >>= fun t => f >>= fun f =>
      addStatement (.branch condition t (some f)) >>= next) := by
  intro s hs
  rw [meets_bind]
  refine (ht s hs).imp fun ss s' hr => ?_
  rw [meets_bind]
  refine (hf s' ((Law.adding p P e o).mono hs hr)).imp fun ss' s'' hr' => ?_
  have built := (Law.adding p P e o).trans hr hr'
  rw [meets_bind]
  refine (meets_add_adding hs (hp ss ss' built.2.1) built).imp fun u s₃ h₃ => ?_
  refine (hn u s₃ ((Law.adding p P e o).mono hs h₃)).imp fun _ _ h₄ => ?_
  exact (Law.adding p P e o).trans h₃ h₄

/-! ### All nodes -/

/-- Where a step of a stage may add statements. -/
def reached (e u : Stage) (_ : Statement) : Prop := u = e ∨ u = .vertex

theorem reached_sited : Law.Sited p (Law.adding p reached) :=
  adding_sited fun _ _ _ h => .inr (h.elim id id)

theorem reached_nested : (Law.adding p reached e o).Nested where
  toStraight := straight_ofStill reached_sited.unmoved fun hi _ hr =>
    meets_add_adding hi (.inl rfl) hr
  inBlock := inBlock_adding

theorem declareVariable_reaches {value : NodeId} {readOnly : Bool} {name : String}
    {type : ValueType} {init : Expr} : (Law.adding p reached e o).Keeps env
      (declareVariable id value readOnly name type init) := by
  refine .bind (.mutability value readOnly) fun m => .bind (.recordKey id) fun key => ?_
  exact .bind (add_adding (.inl rfl) rfl) fun _ => bindName_adding name none

/-- Generation adds statements to the open block of its stage and to that of the vertex program
only. -/
theorem generator_reaches : ∀ fuel e o, (Law.adding p reached e o).Runs (generator fuel) := by
  refine reached_sited.generator (fun _ _ _ _ => (meets_true _).imp fun _ _ _ => trivial) ?_
  intro e o depth env s id n hg hi hn
  have serves : ∀ c, (Law.adding p reached e o).Serves env (generator depth) c :=
    fun _ => reached_sited.serves (hg e o)
  have code : (Law.adding p reached e o).Keeps env (generateNode (generator depth) id n) := by
    cases hspecial : n.isSpecial with
    | true =>
      cases n with
      | var value name readOnly =>
        exact .map _ (.buildVariable reached_nested.toStraight (reached_sited.typeOf id) (serves value)
          fun _ _ _ _ => declareVariable_reaches)
      | varying | context | contextValue | cache =>
        exact reached_sited.generateShifting hg hn rfl fun _ _ => add_adding (.inl rfl) rfl
      | _ => cases hspecial
    | false =>
      exact .generateNested reached_nested hspecial (fun name => .read (bindName_adding name _))
        (reached_sited.typeOf id) fun c _ => serves c
  refine (code s hi).imp fun _ s' hr => (Law.adding p reached e o).trans hr ?_
  exact adding_of_stack (.of_eq rfl rfl rfl) fun _ => rfl

end Build

end ShaderGraph
