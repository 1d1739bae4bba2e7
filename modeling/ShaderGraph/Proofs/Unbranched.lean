import ShaderGraph.Proofs.Collected
import ShaderGraph.Proofs.Coverage
import ShaderGraph.Proofs.Generation

/-!
# Programs without branches

Only conditionals and loops open blocks. In a plan without them (`Plan.Unbranched`) the code of every
node stands in the outermost block, and no other block is open when a node is asked for (`run_flat`).
-/

namespace ShaderGraph

/-- Whether the code of a node may open blocks. -/
def NodeOf.branches {ρ μ : Type} : NodeOf ρ μ → Bool
  | conditional .. | loop .. => true
  | _ => false

/-- No node of a plan opens blocks. -/
def Plan.Unbranched (p : Plan) : Prop := ∀ id n, p.node id = .ok n → n.branches = false

theorem Plan.Unbranched.of_all {p : Plan}
    (h : (p.graph.entries.toList.map Entry.node).all (fun n => !n.branches) = true) :
    p.Unbranched := by
  intro id n hn
  simpa using List.all_eq_true.1 h n (mem_of_node hn)

/-- The outermost block of a stage. -/
def BlockId.outermost : BlockId := ⟨0⟩

/-- No block but the outermost is open, nor was any when a node was asked for, and no statement holds
blocks. -/
structure BuildState.Flat (s : BuildState) : Prop where
  blocks : ∀ t, (s.stages.get t).openBlocks = [.outermost]
  visits : ∀ v ∈ s.visits, v.entry.openBlocks = [.outermost]
  statements : ∀ t, ∀ st ∈ (s.stages.get t).outer.statements, st.blocks = []

namespace BuildState.Flat

variable {s s' : BuildState} {st : Statement}

theorem of_quiet (h : s.Flat) (hq : s.Quiet s') : s'.Flat where
  blocks t := by
    rw [← h.blocks t, StageBuild.openBlocks, StageBuild.openBlocks, hq.inner, hq.outer]
  visits := hq.visits ▸ h.visits
  statements t := hq.outer t ▸ h.statements t

theorem add (h : s.Flat) (e : Stage) (hb : st.blocks = []) :
    BuildState.Flat { s with stages := s.stages.modify e fun b => b.add st } where
  blocks t := (s.stages.map_get_modify e t fun _ => StageBuild.openBlocks_add).trans (h.blocks t)
  visits := h.visits
  statements t := by
    show ∀ st' ∈ ((s.stages.modify e fun b => b.add st).get t).outer.statements, st'.blocks = []
    rw [PerStage.get_modify]
    split
    · unfold StageBuild.add
      split
      · exact List.forall_mem_append.2 ⟨h.statements t, List.forall_mem_singleton.2 hb⟩
      · exact h.statements t
    · exact h.statements t

end BuildState.Flat

/-- What generation keeps to where no block is opened. -/
def Law.flat (p : Plan) (e : Stage) (o : ScopeId) : Law where
  inv env s := (Placed p o env s ∧ env.stage = e) ∧ s.Flat
  rel ss s s' := s.Advances p s' ∧ (s.Flat → s'.Flat) ∧ ss = []
  ends _ := True
  refl s := ⟨.refl s, id, rfl⟩
  trans h h' := ⟨h.1.trans h'.1, h'.2.1 ∘ h.2.1, List.append_eq_nil_iff.2 ⟨h.2.2, h'.2.2⟩⟩
  mono hi hr := ⟨⟨hi.1.1.mono hr.1, hi.1.2⟩, hr.2.1 hi.2⟩
  loops l hi := ⟨⟨hi.1.1.loops l, hi.1.2⟩, hi.2⟩
  ordinary _ := trivial
  located _ := trivial

namespace Build

open Law

variable {p : Plan} {e : Stage} {o : ScopeId} {env : Env} {id : NodeId}
  {rs : List (Stage × NodeId)} {s : BuildState}

theorem flat_sited : Law.Sited p (Law.flat p) where
  site hi := hi.1
  move hi placed he := ⟨⟨placed, he⟩, hi.2⟩
  quiet _ ha hq := ⟨ha, fun h => h.of_quiet hq, rfl⟩
  scope h := h
  write h := h
  ends _ := trivial

theorem flat_straight : (Law.flat p e o).Straight :=
  straight_ofStill flat_sited.unmoved fun _ _ hr =>
    ⟨hr.1.trans (.of_eq rfl rfl rfl), fun h => (hr.2.1 h).add _ hr.2.2, rfl⟩

theorem bindName_flat (name : String) (frame : Option FrameId) :
    (Law.flat p e o).Keeps env (bindName id name frame) :=
  .read (.bind .here fun _ _ _ =>
    ⟨.of_eq rfl rfl rfl, fun h => ⟨h.blocks, h.visits, h.statements⟩, rfl⟩)

theorem declareVariable_flat {value : NodeId} {readOnly : Bool} {name : String}
    {type : ValueType} {init : Expr} :
    (Law.flat p e o).Keeps env (declareVariable id value readOnly name type init) := by
  refine .bind (.mutability value readOnly) fun m => .bind (.recordKey id) fun key => ?_
  exact .bind (fun s _ => ⟨.of_eq rfl rfl rfl, fun h => h.add _ rfl, rfl⟩) fun _ =>
    bindName_flat name none

theorem generator_flat (hp : p.Unbranched) : ∀ fuel e o, (Law.flat p e o).Runs (generator fuel) := by
  refine flat_sited.generator (fun _ _ _ _ => (meets_true _).imp fun _ _ _ => trivial) ?_
  intro e o depth env s id n hg hi hn
  have code : (Law.flat p e o).Keeps env (generateNode (generator depth) id n) := by
    cases hspecial : n.isSpecial with
    | true =>
      cases n with
      | var value name readOnly =>
        exact .map _ (.buildVariable flat_straight (flat_sited.typeOf id) (flat_sited.serves (hg e o))
          fun _ _ _ _ => declareVariable_flat)
      | varying | context | contextValue | cache =>
        exact flat_sited.generateShifting hg hn rfl fun _ _ => .add flat_straight (.assign trivial) rfl
      | _ => cases hspecial
    | false =>
      refine .generateStraight flat_straight hspecial (fun name => .read (bindName_flat name _))
        (flat_sited.typeOf id) (fun _ _ => flat_sited.serves (hg e o)) ?_ ?_
      · rintro condition thenNode elseNode rfl
        cases hp id _ hn
      · rintro params body rfl
        cases hp id _ hn
  refine (code s hi).imp fun _ s' hr => ⟨hr.1.trans (.of_eq rfl rfl rfl), fun h => ?_, rfl⟩
  refine ⟨(hr.2.1 h).blocks, fun v hv => ?_, (hr.2.1 h).statements⟩
  rcases List.mem_cons.1 hv with rfl | hv
  · exact h.blocks env.stage
  · exact (hr.2.1 h).visits v hv

/-- Without conditionals and loops no block but the outermost is ever open. -/
theorem run_flat (hp : p.Unbranched) (h : run p rs = .ok s) : s.Flat := by
  obtain ⟨s₀, hanalyze, hgenerate⟩ := of_run h
  obtain ⟨regular, quiet, -⟩ := analyze_covers _ hanalyze
  have start : (BuildState.start p).Flat := by
    refine ⟨fun t => by cases t <;> rfl, fun _ hv => (nomatch hv), fun t st hst => ?_⟩
    cases t <;> cases hst
  have flat := start.of_quiet quiet
  have generated := flat_sited.generate (fun h => h) (fun fuel e o => generator_flat hp fuel e o)
    (fun t => ⟨⟨.root regular _ t, rfl⟩, flat⟩) hgenerate
  exact generated.2.1 flat

end Build

end ShaderGraph
