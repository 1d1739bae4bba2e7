import ShaderGraph.Proofs.Collected
import ShaderGraph.Proofs.Generation
import ShaderGraph.Proofs.Listing

/-!
# The names that entry points declare

An entry point declares a name by a declaration of a local or by a loop. Whatever generation does,
the names that it declares anew are none of a table of names that were taken when it began
(`BuildState.Avoids`, `generate_avoids`).
-/

namespace ShaderGraph

/-- The names that some statements declare, in their blocks as well. -/
def Statement.namesIn (ss : List Statement) : List String :=
  collectIn (fun st => st.own?.toList) ss

/-- The names that the entry point of a stage declares. -/
def StageBuild.localNames (b : StageBuild) : List String :=
  Statement.namesIn b.locals ++ b.collect fun st => st.own?.toList

namespace StageBuild

variable {b : StageBuild} {st : Statement} {n : String}

theorem mem_localNames_add : n ∈ (b.add st).localNames ↔
    n ∈ b.localNames ∨ st.own? = some n ∨ n ∈ Statement.namesIn st.blocks := by
  unfold localNames
  rw [locals_add, List.mem_append, collect_add.mem_iff, List.mem_append, Statement.collect_eq,
    List.mem_append, Option.mem_toList, List.mem_append, or_assoc]
  rfl

theorem localNames_openBlock : b.openBlock.localNames = b.localNames := by
  unfold localNames
  rw [collect_openBlock]
  rfl

theorem mem_localNames_closeBlock : n ∈ b.localNames ↔
    n ∈ Statement.namesIn b.innerStatements ∨ n ∈ b.closeBlock.localNames := by
  unfold localNames
  rw [List.mem_append, ← collect_closeBlock, List.mem_append, List.mem_append, ← or_assoc,
    ← or_assoc, or_comm (a := n ∈ Statement.namesIn b.locals)]
  rfl

end StageBuild

namespace BuildState

variable {p : Plan} {taken : NameTable} {s s' s'' : BuildState} {ns ns' : List String}

/-- The entry point of some stage declares a name. -/
def Declares (s : BuildState) (n : String) : Prop := ∃ t, n ∈ (s.stages.get t).localNames

/-- What entry points declare between two states, or in statements that belong to no open block
and declare `ns`, was not taken. -/
structure Avoids (p : Plan) (taken : NameTable) (ns : List String) (s s' : BuildState) : Prop where
  enters : s.Enters p s'
  fresh : ∀ n, s'.Declares n ∨ n ∈ ns → s.Declares n ∨ taken.isUsed n = false

theorem declares_of_bodies (h : s'.bodies = s.bodies) {n : String} :
    s'.Declares n ↔ s.Declares n := by
  have same : ∀ t, (s'.stages.get t).localNames = (s.stages.get t).localNames := by
    intro t
    have hi : (s'.stages.get t).inner = (s.stages.get t).inner :=
      congrArg EntryPoint.inner (congrFun h t)
    have ho : (s'.stages.get t).outer = (s.stages.get t).outer :=
      congrArg EntryPoint.outer (congrFun h t)
    have hl : (s'.stages.get t).locals = (s.stages.get t).locals :=
      congrArg EntryPoint.locals (congrFun h t)
    unfold StageBuild.localNames StageBuild.collect
    rw [hi, ho, hl]
  exact exists_congr fun t => by rw [same t]

namespace Avoids

theorem of_lists (h : s.Lists p s') : s.Avoids p taken [] s' where
  enters := h.toEnters
  fresh _ hn := .inl ((declares_of_bodies h.bodies).1 (hn.resolve_right fun hn => nomatch hn))

theorem refl (s : BuildState) : s.Avoids p taken [] s := of_lists (.refl s)

theorem trans (h : s.Avoids p taken ns s') (h' : s'.Avoids p taken ns' s'') :
    s.Avoids p taken (ns ++ ns') s'' where
  enters := h.enters.trans h'.enters
  fresh n hn := by
    have before : s'.Declares n ∨ n ∈ ns → s.Declares n ∨ taken.isUsed n = false := h.fresh n
    rw [List.mem_append, or_left_comm, or_comm] at hn
    rcases hn with hn | hn
    · exact (h'.fresh n hn).elim (fun hd => before (.inl hd)) .inr
    · exact before (.inr hn)

/-- What was collected for one stage changes; what it declares anew was not taken. -/
theorem modify {t : Stage} {f : StageBuild → StageBuild} (h : s.Avoids p taken ns s')
    (hf : ∀ n, n ∈ (f (s'.stages.get t)).localNames → n ∈ (s'.stages.get t).localNames ∨
      n ∈ ns ∨ taken.isUsed n = false) :
    s.Avoids p taken [] { s' with stages := s'.stages.modify t f } where
  enters := h.enters.trans (.of_eq rfl rfl rfl rfl rfl)
  fresh n hn := by
    obtain ⟨u, hu⟩ := hn.resolve_right fun hn => nomatch hn
    rw [PerStage.get_modify] at hu
    split at hu
    · next he =>
      subst he
      rcases hf n hu with hn | hn | hn
      · exact h.fresh n (.inl ⟨_, hn⟩)
      · exact h.fresh n (.inr hn)
      · exact .inr hn
    · exact h.fresh n (.inl ⟨u, hu⟩)

/-- A statement is added that declares no name that was taken. -/
theorem add {t : Stage} {st : Statement}
    (h : s.Avoids p taken (Statement.namesIn st.blocks) s')
    (hn : ∀ n, st.own? = some n → taken.isUsed n = false) :
    s.Avoids p taken [] { s' with stages := s'.stages.modify t fun b => b.add st } := by
  refine h.modify fun n hmem => ?_
  rcases StageBuild.mem_localNames_add.1 hmem with hmem | hown | hblocks
  · exact .inl hmem
  · exact .inr (.inr (hn n hown))
  · exact .inr (.inl hblocks)

/-- A block is closed; its statements are handed over. -/
theorem closeBlock {t : Stage}
    (h : ({ s with stages := s.stages.modify t StageBuild.openBlock } : BuildState).Avoids p taken
      [] s') :
    s.Avoids p taken (Statement.namesIn (s'.stages.get t).innerStatements)
      { s' with stages := s'.stages.modify t StageBuild.closeBlock } where
  enters := by
    have opened : s.Enters p { s with stages := s.stages.modify t StageBuild.openBlock } :=
      .of_eq rfl rfl rfl rfl rfl
    exact (opened.trans h.enters).trans (.of_eq rfl rfl rfl rfl rfl)
  fresh n hn := by
    have inside : s'.Declares n := by
      rcases hn with ⟨u, hu⟩ | hn
      · rw [PerStage.get_modify] at hu
        split at hu
        · next he =>
          exact ⟨u, StageBuild.mem_localNames_closeBlock.2 (.inr hu)⟩
        · exact ⟨u, hu⟩
      · exact ⟨t, StageBuild.mem_localNames_closeBlock.2 (.inl hn)⟩
    refine (h.fresh n (.inl inside)).imp_left fun ⟨u, hu⟩ => ⟨u, ?_⟩
    rw [PerStage.get_modify] at hu
    split at hu
    · exact StageBuild.localNames_openBlock ▸ hu
    · exact hu

end Avoids

end BuildState

/-- What generation keeps to while the names of a table are taken. -/
def Law.avoiding (p : Plan) (taken : NameTable) : Law where
  inv env s := env.plan = p ∧ s.Named p ∧ ∀ n, taken.isUsed n = true → s.globals.isUsed n = true
  rel ss := BuildState.Avoids p taken (Statement.namesIn ss)
  ends _ := True
  names n := taken.isUsed n = false
  refl := .refl
  trans {ss ss' s s' s''} h h' := by
    show s.Avoids p taken (Statement.namesIn (ss ++ ss')) s''
    rw [Statement.namesIn, Statement.collectIn_append]
    exact h.trans h'
  mono hi hr :=
    ⟨hi.1, hr.enters.named hi.2.1, fun n hn => hr.enters.taken n (hi.2.2 n hn)⟩
  loops _ hi := hi
  ordinary _ := trivial
  located _ := trivial

namespace Build

open Law BuildState

variable {p : Plan} {taken : NameTable} {env : Env} {s s' : BuildState} {α : Type}

theorem avoiding_ofListing {step : Build α} (h : (Law.listing p).Keeps env step) :
    (Law.avoiding p taken).Keeps env step :=
  fun s hi => (h s hi.1).imp fun _ _ hr => .of_lists hr

/-- A name that is free in the entry point was not taken before. -/
theorem free_of_isTaken {t : NameTable} {n : String}
    (hi : ∀ n, taken.isUsed n = true → s.globals.isUsed n = true)
    (h : t.isTaken s.globals n = false) : taken.isUsed n = false := by
  rw [NameTable.isTaken, Bool.or_eq_false_iff] at h
  by_contra hused
  have used := hi n (by simpa using hused)
  rw [h.2] at used
  cases used

theorem claimLocal_avoiding (name : String) :
    (Law.avoiding p taken).Yields env (claimLocal name) (Law.avoiding p taken).names := by
  intro s hi
  have free : Meets (claimLocal name) env s (fun _ => True) fun n _ => taken.isUsed n = false :=
    free_of_isTaken hi.2.2 ((s.stages.get env.stage).names.claim_free s.globals name)
  have avoids : Meets (claimLocal name) env s (fun _ => True) fun _ s' =>
      s.Avoids p taken [] s' := (Avoids.refl s).modify fun _ hn => .inl hn
  exact avoids.and free

theorem claimTemp_avoiding :
    (Law.avoiding p taken).Yields env claimTemp (Law.avoiding p taken).names := by
  intro s hi
  have free : Meets claimTemp env s (fun _ => True) fun n _ => taken.isUsed n = false :=
    free_of_isTaken hi.2.2 ((s.stages.get env.stage).names.claimNumbered_free s.globals "nodeVar"
      (s.stages.get env.stage).tempCounter)
  have avoids : Meets claimTemp env s (fun _ => True) fun _ s' => s.Avoids p taken [] s' :=
    (Avoids.refl s).modify fun _ hn => .inl hn
  exact avoids.and free

/-- A property declares its name at the top of the entry point. -/
theorem buildProperty_avoiding (name : String) (type : ValueType) :
    (Law.avoiding p taken).Keeps env (buildProperty name type) := by
  refine .bind .here fun b => ?_
  split
  · exact .when (fun _ => .fail rfl) fun _ => .pure _
  refine .bind (avoiding_ofListing (useType_listing type)) fun _ => ?_
  refine .using (claimLocal_avoiding name) fun emitted hn => .bind (fun s hi => ?_) fun _ => .pure _
  refine (Avoids.refl s).modify fun n hmem => ?_
  unfold StageBuild.localNames Statement.namesIn at hmem
  rw [Statement.collectIn_append, List.mem_append, List.mem_append] at hmem
  rcases hmem with (hmem | hmem) | hmem
  · exact .inl (List.mem_append_left _ hmem)
  · obtain rfl : n = emitted := by simpa [Statement.collectIn, Statement.collect,
      Statement.own?] using hmem
    exact .inr (.inr hn)
  · exact .inl (List.mem_append_right _ hmem)

theorem inBlock_avoiding {step : Build Unit} (h : (Law.avoiding p taken).Keeps env step) :
    (Law.avoiding p taken).Leaves env (inBlock step) := by
  rintro s ⟨plan, named, used⟩
  unfold inBlock
  rw [meets_bind, meets_modifyHere, meets_bind]
  have opened : s.Enters p { s with stages := s.stages.modify env.stage StageBuild.openBlock } :=
    .of_eq rfl rfl rfl rfl rfl
  refine (h _ ⟨plan, opened.named named, used⟩).imp fun _ s' hr => ?_
  rw [meets_bind, meets_here, meets_bind, meets_modifyHere, meets_pure]
  exact Avoids.closeBlock hr

theorem avoiding_closed : (Law.avoiding p taken).Closed where
  registerUniform id name type group update value := fun _ hi =>
    (registerUniform_listing id name type group update value hi.1).imp fun _ _ h => .of_lists h.1
  useUniform group u := avoiding_ofListing (useUniform_listing group u)
  registerTexture name := fun _ _ =>
    (registerTexture_listing (p := p) name).imp fun _ _ h => .of_lists h.1
  useTexture name := avoiding_ofListing (useTexture_listing name)
  registerStorage name element count access _ :=
    (registerStorage_listing (p := p) name element count access).imp fun _ _ h => ⟨.of_lists h.1, h.2⟩
  useStorage _ _ hi hb := (useStorage_listing hi.1 hb).imp fun _ _ h => .of_lists h
  registerAttribute name type := fun _ _ =>
    (registerAttribute_listing (p := p) name type).imp fun _ _ h => .of_lists h.1
  useAttribute name type _ := avoiding_ofListing (useAttribute_listing name type)
  useBuiltin b := avoiding_ofListing (useBuiltin_listing b)
  property := buildProperty_avoiding
  useType type := avoiding_ofListing (useType_listing type)
  registerFunction f := avoiding_ofListing (registerFunction_lists f)
  useFunction f := avoiding_ofListing (useFunction_listing f)
  claimLocal := claimLocal_avoiding
  releaseLocal _ := fun s _ => (Avoids.refl s).modify fun _ hn => .inl hn
  claimTemp := claimTemp_avoiding
  bindValue name _ _ := .read (avoiding_ofListing (bindName_listing _ name _))
  add _ ha hr := Avoids.add hr ha.name
  inBlock := inBlock_avoiding

theorem avoiding_unscoped : (Law.avoiding p taken).Unscoped where
  ends _ := trivial
  surroundings hi hp _ := ⟨hp.trans hi.1, hi.2⟩
  types _ _ _ := .of_lists ⟨.of_eq rfl rfl rfl rfl rfl, rfl⟩
  functions f := avoiding_ofListing (registerFunction_lists f)
  scopes _ _ _ := .of_lists ⟨.of_eq rfl rfl rfl rfl rfl, rfl⟩

theorem declareVariable_avoiding {id value : NodeId} {readOnly : Bool} {name : String}
    {type : ValueType} {init : Expr} (hn : taken.isUsed name = false) :
    (Law.avoiding p taken).Keeps env (declareVariable id value readOnly name type init) := by
  refine .bind (.mutability value readOnly) fun m => .bind (.recordKey id) fun key => ?_
  refine .bind (fun s _ => (Avoids.refl s).add ?_) fun _ =>
    avoiding_ofListing (bindName_listing id name none)
  rintro n ⟨⟩
  exact hn

theorem mark_avoiding (id : NodeId) :
    (Law.avoiding p taken).Keeps env (modifyHere fun b =>
      { b with varyings := appendNew b.varyings id }) :=
  fun s _ => (Avoids.refl s).modify fun _ hn => .inl hn

theorem inStage_avoiding {step : Build Unit} {t : Stage}
    (h : (Law.avoiding p taken).Keeps (within env t) step) :
    (Law.avoiding p taken).Keeps env (inStage t step) := by
  refine h.inStage (fun s hi => ⟨?_, hi.2⟩) (fun _ _ hr => hr) fun _ he => he
  unfold within
  split <;> exact hi.1

theorem buildVarying_avoiding {g : Generator} (hg : (Law.avoiding p taken).Runs g)
    {id source : NodeId} {name : Option String} {interpolation : Interpolation}
    {sampling : Option Sampling}
    (hn : p.node id = .ok (.varying source name interpolation sampling)) :
    (Law.avoiding p taken).Keeps env (buildVarying g id source name interpolation sampling) := by
  have serves : (Law.avoiding p taken).Serves (within env .vertex) g source :=
    hg.serves avoiding_unscoped.toIndifferent
  have assign := Keeps.assignVarying (fun _ _ => .add avoiding_closed.toStraight (.assign trivial) rfl)
    (mark_avoiding id) serves
  refine .buildVarying assign (mark_avoiding id) inStage_avoiding
    (R := fun v s => v.source = source ∧ s.namesOf (.varying id) = [v.name]) (fun _ _ h => h.1)
    (fun v s s' hr h => ⟨h.1, ?_⟩) (fun s hi => ?_) fun v s _ h => ?_
  · rw [hr.enters.keep (h.2 ▸ List.cons_ne_nil _ _), h.2]
  · exact (registerVarying_listing hi.1 hn hi.2.1).imp fun v s' h => ⟨.of_lists h.1, h.2⟩
  · exact (locateVarying_listing (h.1 ▸ hn) h.2).imp fun _ _ h => .of_lists h

/-- Generation declares no name that is taken. -/
theorem generator_avoids (fuel : Nat) : (Law.avoiding p taken).Runs (generator fuel) := by
  refine generator_runs (fun _ => avoiding_unscoped) (fun _ => avoiding_closed.toPlain)
    (fun _ fuel id env s => (meets_true _).imp fun _ _ _ => trivial) ?_ fuel .vertex
  intro _ depth env s id n hg hi hn
  have code : (Law.avoiding p taken).Keeps env (generateNode (generator depth) id n) := by
    refine avoiding_unscoped.generateNode avoiding_closed (hg .vertex) hn ?_ ?_
    · rintro source name interpolation sampling rfl
      exact buildVarying_avoiding (hg .vertex) (hi.1 ▸ hn)
    · rintro value name readOnly rfl
      exact .buildVariable avoiding_closed.toStraight (typeOf_indifferent avoiding_unscoped.toIndifferent id)
        ((hg .vertex).serves avoiding_unscoped.toIndifferent) fun _ _ _ => declareVariable_avoiding
  exact (code s hi).imp fun _ _ hr => hr.trans (.of_lists ⟨.of_eq rfl rfl rfl rfl rfl, rfl⟩)

/-- The names that generation declares were not taken when it began. -/
theorem generate_avoids {active : List Stage} {rs : List (Stage × NodeId)} (hs : s.Named p)
    (h : atRoots p active generateStage rs s = .ok s') : s.Avoids p s.globals [] s' := by
  refine generate_keeps (L := fun _ => Law.avoiding p s.globals) (M := Law.avoiding p s.globals)
    (fun _ => avoiding_unscoped) (fun fuel _ => generator_avoids fuel) (fun _ _ output => ?_)
    (fun _ _ hi => hi) (fun _ _ _ hr => hr) (fun _ => trivial) (fun _ => ⟨rfl, hs, fun _ h => h⟩) h
  exact fun s _ => (Avoids.refl s).modify fun _ hn => .inl hn

end Build

end ShaderGraph
