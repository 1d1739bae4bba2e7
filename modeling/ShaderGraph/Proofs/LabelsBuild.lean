import ShaderGraph.Proofs.Labels
import ShaderGraph.Proofs.VariablesBuild

/-!
# Generation and names

What generation of a single node does to the names and their types. The value of a node that may be
bound is recalled, is left as it is or gets a name (`Settles`); a node that stands for another passes
on its code (`passes_labels`). After a run all names stand for something (`run_labelled`).
-/

namespace ShaderGraph

open Build

/-- What generation keeps to in the stage `e`, where the finished programs declare `D`. -/
def Law.labelling (p : Plan) (D : Stage → String × ValueType → Prop) (e : Stage) : Law where
  inv env s := (env.plan = p ∧ env.typing = [] ∧ env.stage = e) ∧ (∃ o, Placed p o env s) ∧
    s.Coherent p ∧ ∃ around, Framed p s.frames env.frames around
  rel := BuildState.Labels p D e
  ends _ := True
  refl := .refl
  trans := .trans
  mono hi hr := by
    obtain ⟨env, ⟨o, placed⟩, coherent, around, framed⟩ := hi
    exact ⟨env, ⟨o, placed.mono hr.advances⟩, hr.finds.coherent coherent, around,
      framed.mono hr.finds.frames⟩
  loops l hi := by
    obtain ⟨env, ⟨o, placed⟩, rest⟩ := hi
    exact ⟨env, ⟨o, placed.loops l⟩, rest⟩
  ordinary _ := trivial
  located _ := trivial

/-- What generation of the roots keeps to. -/
def Law.labellingRoots (p : Plan) (D : Stage → String × ValueType → Prop) : Law where
  inv env s := (env.plan = p ∧ env.typing = [] ∧ env.frames = []) ∧ Placed p .root env s ∧ s.Coherent p
  rel _ := BuildState.Labels p D .vertex []
  ends _ := True
  refl := .refl
  trans := .trans
  mono hi hr := ⟨hi.1, hi.2.1.mono hr.advances, hr.finds.coherent hi.2.2⟩
  loops l hi := ⟨hi.1, hi.2.1.loops l, hi.2.2⟩
  ordinary _ := trivial
  located _ := trivial

/-- The state after a node was bound to a name. -/
def BuildState.coining (s : BuildState) (env : Env) (id : NodeId) (b : BoundName) : BuildState :=
  { s with cache := s.cache.bind env.scope id (some env.stage) b }

namespace Build

open Law BuildState

variable {p : Plan} {D : Stage → String × ValueType → Prop} {e : Stage} {env : Env} {g : Generator}
  {s s' s'' : BuildState} {id : NodeId} {n : Node} {σ : Situation} {code : Option Expr} {t : ValueType}

/-! ### Steps that name nothing -/

theorem labelling_tabular : (Law.labelling p D e).Tabular True where
  exhausted _ := trivial
  founded _ := absurd trivial
  rel _ := .of_core

theorem labelling_finding (hi : (Law.labelling p D e).inv env s) :
    ∃ around, (Law.finding p around []).inv env s := by
  obtain ⟨⟨plan, typing, -⟩, -, coherent, around, framed⟩ := hi
  exact ⟨around, ⟨plan, typing⟩, coherent, framed⟩

/-- What finds types and leaves all else alone keeps to the law. -/
theorem labelling_ofFinding {α : Type} {step : Build α}
    (hf : ∀ around, (Law.finding p around []).Keeps env step) (ht : Law.typing.Keeps env step) :
    (Law.labelling p D e).Keeps env step := by
  intro s hi
  obtain ⟨around, inv⟩ := labelling_finding hi
  exact ((hf around s inv).and (ht s trivial)).imp fun _ s' hr => .of_still hr.1.1 hr.2

theorem add_labelling (st : Statement) (hi : (Law.labelling p D e).inv env s)
    (h : s.Labels p D e st.blocks s') : Meets (addStatement st) env s' (fun _ => True) fun _ s'' =>
      s.Labels p D e [] s'' ∧ (s''.Among D e [] → ∀ d ∈ st.typed, D e d) := by
  obtain ⟨⟨-, -, rfl⟩, -⟩ := hi
  exact ⟨h.add, fun hw _ hd => Labels.typed_add hw hd⟩

theorem labelling_nested : (Law.labelling p D e).Nested where
  toStraight := labelling_tabular.straight
    (fun _ f => labelling_ofFinding (fun _ => (registerFunction_finds f).keeps) (registerFunction_still f))
    (fun _ f => labelling_ofFinding (fun _ => useFunction_finds f) (useFunction_still f))
    fun hi _ hr => (add_labelling _ hi hr).imp fun _ _ h => h.1
  inBlock {env step} h s hi := by
    have stage := hi.1.2.2
    subst stage
    unfold inBlock
    rw [meets_bind, meets_modifyHere, meets_bind]
    have opened : (Law.labelling p D env.stage).inv env
        { s with stages := s.stages.modify env.stage StageBuild.openBlock } := by
      have opens : s.Finds p { s with stages := s.stages.modify env.stage StageBuild.openBlock } :=
        .of_eq rfl rfl rfl rfl
      obtain ⟨env', ⟨o, placed⟩, coherent, framed⟩ := hi
      exact ⟨env', ⟨o, placed.mono (.of_eq rfl rfl rfl)⟩, opens.coherent coherent, framed⟩
    refine (h _ opened).imp fun _ s' hr => ?_
    rw [meets_bind, meets_here, meets_bind, meets_modifyHere, meets_pure]
    exact Labels.closeBlock hr

/-- The type of a node is found. -/
theorem typeOf_labelling (c : NodeId) (hi : (Law.labelling p D e).inv env s) :
    Meets (typeOf c) env s (fun _ => True) fun t s' => s.Labels p D e [] s' ∧
      ∀ m, p.resolve c = .ok m → s'.types.get? (m, Frame.current env.frames) = some t := by
  obtain ⟨around, inv⟩ := labelling_finding hi
  refine ((typeOf_finds c s inv).and (typeOf_still c s trivial)).imp fun t s' hr => ?_
  refine ⟨.of_still hr.1.1.1 hr.2, fun m hm => ?_⟩
  exact (typeIn?_of_get? (inv.2.2.mono hr.1.1.1.frames).number?).symm.trans (hr.1.2 m hm)

theorem typeOf_keeps (c : NodeId) : (Law.labelling p D e).Keeps env (typeOf c) :=
  fun _ hi => (typeOf_labelling c hi).imp fun _ _ hr => hr.1

/-- A node was visited under the contexts around the step, with the given code. -/
def Emitted (p : Plan) (env : Env) (c : NodeId) (code : Option Expr) (s : BuildState) : Prop :=
  ∃ v ∈ s.visits, p.resolve c = .ok v.key.node ∧ v.key.stage = some env.stage ∧
    v.frames = env.frames ∧ v.code = code

/-- A generator keeps to the laws, and logs what it generates. -/
structure Labelling (p : Plan) (D : Stage → String × ValueType → Prop) (g : Generator) : Prop where
  emit : ∀ {e env id s}, (Law.labelling p D e).inv env s →
    Meets (g.emit id) env s (fun _ => True) fun code s' =>
      s.Labels p D e [] s' ∧ Emitted p env id code s'
  place : ∀ {e env id}, (Law.labelling p D e).Keeps env (g.place id)

theorem Labelling.serves (hg : Labelling p D g) (c : NodeId) :
    (Law.labelling p D e).Serves env g c where
  emit _ _ _ _ hi := (hg.emit hi).imp fun _ _ hr => hr.1
  place _ := .ofKeeps hg.place fun _ => trivial
  type _ m _ := typeOf_keeps m

/-! ### Logs -/

/-- A visit is logged after a step. -/
theorem log_labels {v : Visit} (h : s.Labels p D e [] s')
    (hv : s'.Among D e [] → s'.Labelled p D →
      BuildState.Tells p D { s' with visits := v :: s'.visits } v) :
    s.Labels p D e [] { s' with visits := v :: s'.visits } := by
  have same : BuildState.Among D e [] { s' with visits := v :: s'.visits } → s'.Among D e [] :=
    fun hw => ⟨hw.blocks, hw.rest⟩
  refine ⟨h.advances.trans (.of_eq rfl rfl rfl), h.finds.trans (.log v),
    List.Subset.trans h.visits (List.subset_cons_self v _), fun hw => h.within (same hw),
    fun hw hs => ?_⟩
  have labelled := h.labelled (same hw) hs
  exact labelled.log (hv (same hw) labelled)

theorem tells_nameless {v : Visit} (h : Nameless v.code) : s.Tells p D v := by
  intro e hc hn
  rw [h e hc] at hn
  cases hn

/-- A visit tells what its own node stands for. -/
theorem tells_own (hi : (Law.labelling p D e).inv env s) (h : s.Labels p D e [] s')
    (hm : ∀ e, code = some e → e.isName = true → BuildState.Means p D
      { s' with visits := visitAt env s id code :: s'.visits } (visitAt env s id code) e) :
    BuildState.Tells p D { s' with visits := visitAt env s id code :: s'.visits }
      (visitAt env s id code) := by
  intro e hc hn
  obtain ⟨-, -, -, around, framed⟩ := hi
  have framed' := framed.mono h.finds.frames
  exact ⟨_, .head _, hc, ⟨rfl, around, around, framed', framed', .refl _⟩, hm e hc hn⟩

/-- A visit tells what the visit of another node tells, which it takes code and type from. -/
theorem tells_alike {around around' : List NodeId} {v : Visit} (hf : Framed p s'.frames env.frames around)
    (hf' : Framed p s'.frames v.frames around')
    (ha : s'.Alike p ⟨id, around⟩ ⟨v.key.node, around'⟩) (hc : s'.Coherent p) (hv : v ∈ s'.visits)
    (hstage : v.key.stage = some env.stage) (hcode : v.code = code) (hl : s'.Labelled p D) :
    BuildState.Tells p D { s' with visits := visitAt env s id code :: s'.visits }
      (visitAt env s id code) := by
  intro e hcode' hn
  obtain ⟨u, hu, hcodeu, ⟨same, a, b, fv, fu, alike⟩, means⟩ := hl.told v hv e (hcode.trans hcode') hn
  -- the numbers of contexts tell apart the sequences of them
  obtain rfl := hc.frames.number?_inj fv.number? hf'.number?
  have finds : s'.Finds p _ := .log (visitAt env s id code)
  have more : s'.visits ⊆ visitAt env s id code :: s'.visits := List.subset_cons_self _ _
  exact ⟨u, more hu, hcodeu, ⟨same.trans hstage, around, b, hf, fu, (ha.trans alike).mono finds⟩,
    means.mono finds more⟩

/-! ### Values that may be bound -/

/-- What generation of a node that may be bound ends with; `P` is about a value without a name. -/
inductive Settles (p : Plan) (D : Stage → String × ValueType → Prop) (e : Stage) (env : Env)
    (s : BuildState) (id : NodeId) (P : Option Expr → BuildState → Prop) :
    Option Expr → BuildState → Prop
  | recalled {b : BoundName} {s' : BuildState} (hr : s.Labels p D e [] s')
      (hb : s'.cache.bound? (keyAt env s' id) = some b)
      (hf : ∀ f, b.frame = some f → f = Frame.current env.frames) :
      Settles p D e env s id P (some (localName b.name)) s'
  | through {code : Option Expr} {s' : BuildState} (hr : s.Labels p D e [] s') (hp : P code s') :
      Settles p D e env s id P code s'
  | named {b : BoundName} {t : ValueType} {s' : BuildState} (hr : s.Labels p D e [] s')
      (hd : s'.Among D e [] → D e (b.name, t))
      (ht : s'.Types p (visitAt env s id (some (localName b.name))) t)
      (hf : b.frame = some (Frame.current env.frames) ∨
        b.frame = none ∧ ∃ value name readOnly, p.node id = .ok (.var value name readOnly)) :
      Settles p D e env s id P (some (localName b.name)) (s'.coining env id b)

theorem labelling_within (u : Stage) (hi : (Law.labelling p D e).inv env s) :
    (Law.labelling p D u).inv (within env u) s := by
  obtain ⟨⟨plan, typing, -⟩, ⟨o, placed⟩, coherent, around, framed⟩ := hi
  have same : (within env u).typing = env.typing ∧ (within env u).frames = env.frames := by
    unfold within
    split
    · exact ⟨rfl, rfl⟩
    · exact ⟨rfl, rfl⟩
  refine ⟨⟨(placed.within u).plan, same.1.trans typing, stage_within env u⟩, ⟨o, placed.within u⟩,
    coherent, around, ?_⟩
  rw [same.2]
  exact framed

theorem keyAt_labelling (hi : (Law.labelling p D e).inv env s) (h : s.Labels p D e [] s') :
    keyAt env s' id = keyAt env s id := by
  obtain ⟨-, ⟨o, placed⟩, -⟩ := hi
  exact (placed.mono h.advances).keyAt.trans placed.keyAt.symm

/-- A node that was bound tells the name that it is bound to. -/
theorem log_coining {b : BoundName} (hi : (Law.labelling p D e).inv env s) (h : s.Labels p D e [] s')
    (hd : s'.Among D e [] → D e (b.name, t))
    (ht : s'.Types p (visitAt env s id (some (localName b.name))) t)
    (hf : b.frame = some (Frame.current env.frames) ∨
      b.frame = none ∧ ∃ value name readOnly, p.node id = .ok (.var value name readOnly)) :
    s.Labels p D e [] { s'.coining env id b with
      visits := visitAt env s id (some (localName b.name)) :: s'.visits } := by
  have key : keyAt env s' id = keyAt env s id := keyAt_labelling hi h
  have stage := hi.1.2.2
  subst stage
  let v := visitAt env s id (some (localName b.name))
  have finds : s'.Finds p { s'.coining env id b with visits := v :: s'.visits } :=
    .of_eq rfl rfl rfl rfl
  have more : s'.visits ⊆ v :: s'.visits := List.subset_cons_self v _
  refine ⟨h.advances.trans (.of_eq rfl rfl rfl), h.finds.trans finds, List.Subset.trans h.visits more,
    fun hw => h.within ⟨hw.blocks, hw.rest⟩, fun hw hs => ?_⟩
  have within : s'.Among D env.stage [] := ⟨hw.blocks, hw.rest⟩
  have labelled := h.labelled within hs
  have coins : BuildState.Coins p D { s'.coining env id b with visits := v :: s'.visits } v b.name :=
    ⟨rfl, env.stage, t, rfl, hd within, ht⟩
  refine ⟨fun k b' hb' => ?_, fun w hw => ?_⟩
  · have bound : (s'.cache.bind env.scope id (some env.stage) b).bound? k = some b' := hb'
    rw [NodeCache.bound?_bind] at bound
    split at bound
    · next own =>
      cases bound
      have same : v.key = k := key.symm.trans own.symm
      refine ⟨v, .head _, same, coins, hf.imp (fun h => h) fun hvar => ⟨hvar.1, ?_⟩⟩
      rw [← same]
      exact hvar.2
    · obtain ⟨w, origin⟩ := labelled.bound k b' bound
      exact ⟨w, origin.mono finds more⟩
  · rcases List.mem_cons.1 hw with rfl | hw
    · intro e hc hn
      cases hc
      obtain ⟨-, -, -, around, framed⟩ := hi
      have framed' := framed.mono h.finds.frames
      exact ⟨v, .head _, rfl, ⟨rfl, around, around, framed', framed', .refl _⟩,
        .value (.head _) rfl coins rfl⟩
    · exact (labelled.told w hw).mono finds more

/-- The visit after a node that may be bound is logged. -/
theorem Settles.log {P : Option Expr → BuildState → Prop} (hi : (Law.labelling p D e).inv env s)
    (h : Settles p D e env s id P code s')
    (through : P code s' → s.Labels p D e [] s' → s'.Labelled p D →
      BuildState.Tells p D { s' with visits := visitAt env s id code :: s'.visits }
        (visitAt env s id code)) :
    s.Labels p D e [] { s' with visits := visitAt env s id code :: s'.visits } := by
  cases h with
  | @recalled b _ hr hb hf =>
    refine log_labels hr fun _ labelled => tells_own hi hr fun e hc _ => ?_
    cases hc
    obtain ⟨w, origin⟩ := labelled.bound _ b hb
    have key : w.key = (visitAt env s id (some (localName b.name))).key :=
      origin.key.trans (keyAt_labelling hi hr)
    have coins := origin.coins.mono (.log (visitAt env s id (some (localName b.name))))
    rcases origin.frame with frame | ⟨-, value, name, readOnly, hn⟩
    · exact .value (.tail _ origin.visit) key coins (hf _ frame)
    · exact .var hn (.tail _ origin.visit) key coins
  | through hr hp => exact log_labels hr fun _ labelled => through hp hr labelled
  | named hr hd ht hf => exact log_coining hi hr hd ht hf

/-- A numbered name is declared with its type. -/
theorem declareTemp_labels (hi : (Law.labelling p D e).inv env s) (type : ValueType)
    (init : Option Expr) (m : Mutability) :
    Meets (declareTemp type init m) env s (fun _ => True) fun x s' =>
      s.Labels p D e [] s' ∧ (s'.Among D e [] → D e (x, type)) := by
  have hL : (Law.labelling p D e).Straight := labelling_nested.toStraight
  unfold declareTemp
  rw [meets_bind]
  refine (hL.useType type s hi).imp fun _ s₁ h₁ => ?_
  rw [meets_bind]
  refine (hL.claimTemp s₁ (Law.mono _ hi h₁)).imp fun x s₂ h₂ => ?_
  have claimed := h₁.trans h₂.1
  rw [meets_bind]
  refine (add_labelling (.declare x type init m none) hi claimed).imp fun _ s₃ h₃ => ?_
  exact ⟨h₃.1, fun hw => h₃.2 hw _ (List.mem_singleton_self _)⟩

/-- The value of a node is recalled, left as it is or bound to a name. -/
theorem buildTemp_settles (hi : (Law.labelling p D e).inv env s) (hm : p.resolve id = .ok id)
    {s₁ : BuildState} (h₁ : s.Labels p D e [] s₁) {step : Build (Option Expr)}
    {P : Option Expr → BuildState → Prop}
    (hstep : Meets step env s₁ (fun _ => True) fun code s' => s₁.Labels p D e [] s' ∧ P code s')
    (stable : ∀ code s' s'', P code s' → s'.Labels p D e [] s'' → P code s'') :
    Meets (buildTemp id step) env s₁ (fun _ => True) (Settles p D e env s id P) := by
  unfold buildTemp
  refine meets_recalling (fun _ => rfl) (fun b hb sees => .recalled h₁ hb sees.1) fun _ => ?_
  dsimp only
  rw [meets_bind]
  refine hstep.imp fun code s₂ h₂ => ?_
  have computed := h₁.trans h₂.1
  rw [meets_bind]
  refine (typeOf_labelling id (Law.mono _ hi computed)).imp fun type s₃ h₃ => ?_
  have typed := computed.trans h₃.1
  cases code with
  | none => exact .through typed (stable _ _ _ h₂.2 h₃.1)
  | some code =>
    show Meets (usage id >>= _) env s₃ _ _
    unfold usage
    rw [meets_bind, meets_bind, meets_read, meets_bind, meets_get, meets_pure]
    refine (meets_ite _ _ _).2 ⟨fun _ => .through typed (stable _ _ _ h₂.2 h₃.1), fun _ => ?_⟩
    show Meets (declareTemp _ _ _ >>= _) env s₃ _ _
    rw [meets_bind]
    refine (declareTemp_labels (Law.mono _ hi typed) type _ _).imp fun x s₄ h₄ => ?_
    refine .named (b := ⟨x, _, _⟩) (typed.trans h₄.1) h₄.2 (.inl ?_) (.inl rfl)
    exact h₄.1.finds.types (h₃.2 id hm)

/-- A node whose value is computed from others. -/
theorem computation_labels (hg : Labelling p D g) (hi : (Law.labelling p D e).inv env s)
    (hm : p.resolve id = .ok id) {step : Build (Option Expr)} (hc : computation? g id n = some step)
    (hn : ∀ source target, n ≠ .convert source target) :
    Meets (generateNode g id n) env s (fun _ => True) fun code s' =>
      s.Labels p D e [] { s' with visits := visitAt env s id code :: s'.visits } := by
  rw [generateNode_computation hc]
  have keeps : (Law.labelling p D e).Keeps env step :=
    .computation labelling_nested.toPlain (typeOf_keeps id) (fun c _ => hg.serves c) hc
  refine (buildTemp_settles (P := fun code _ => Nameless code) hi hm (.refl s) ?_
    fun _ _ _ h _ => h).imp fun code s' hr => ?_
  · exact (keeps s hi).and (computation_nameless hc hn env s)
  · exact hr.log hi fun nameless _ _ => tells_nameless nameless

/-! ### Conversions -/

/-- A conversion to the type that the value has passes on the code of the value. -/
theorem buildConvert_labels (hg : Labelling p D g) (hi : (Law.labelling p D e).inv env s)
    (source : NodeId) (target : ValueType) :
    Meets (buildConvert g source target) env s (fun _ => True) fun code s' =>
      s.Labels p D e [] s' ∧ (Nameless code ∨ ∃ v ∈ s'.visits, v.key.stage = some env.stage ∧
        v.frames = env.frames ∧ v.code = code ∧ s'.typeAt? v = some target) := by
  unfold buildConvert
  rw [meets_bind]
  refine (typeOf_labelling source hi).imp fun type s₁ h₁ => ?_
  rw [meets_bind]
  refine (hg.emit (Law.mono _ hi h₁.1)).imp ?_
  rintro code s₂ ⟨h₂, v, hv, hm, hstage, hframes, hcode⟩
  have emitted := h₁.1.trans h₂
  cases code with
  | none =>
    refine meets_check fun _ => ⟨emitted, .inl nameless_none⟩
  | some code =>
    dsimp only
    rw [meets_bind, meets_ofExcept]
    split
    · next code' hconvert =>
      refine ⟨emitted, ?_⟩
      by_cases same : type = target
      · subst same
        cases (code.convert_self type).symm.trans hconvert
        refine .inr ⟨v, hv, hstage, hframes, hcode, h₂.finds.types ?_⟩
        show s₁.types.get? (v.key.node, Frame.current v.frames) = _
        rw [hframes]
        exact h₁.2 _ hm
      · exact .inl (nameless_some (Expr.isName_convert hconvert same))
    · trivial

theorem convert_labels (hg : Labelling p D g) (hi : (Law.labelling p D e).inv env s)
    (hm : p.resolve id = .ok id) {source : NodeId} {target : ValueType}
    (hn : p.node id = .ok (.convert source target)) :
    Meets (buildTemp id (buildConvert g source target)) env s (fun _ => True) fun code s' =>
      s.Labels p D e [] { s' with visits := visitAt env s id code :: s'.visits } := by
  refine (buildTemp_settles hi hm (.refl s) (buildConvert_labels hg hi source target) ?_).imp
    fun code s' hr => ?_
  · rintro code s' s'' (nameless | ⟨v, hv, hstage, hframes, hcode, ht⟩) hr
    · exact .inl nameless
    · exact .inr ⟨v, hr.visits hv, hstage, hframes, hcode, hr.finds.types ht⟩
  · refine hr.log hi fun through labels labelled => ?_
    obtain nameless | ⟨v, hv, hstage, hframes, hcode, ht⟩ := through
    · exact tells_nameless nameless
    · obtain ⟨-, -, coherent, around, framed⟩ := Law.mono (Law.labelling p D e) hi labels
      have framed' : Framed p s'.frames v.frames around := hframes ▸ framed
      have found : s'.typeIn? ⟨v.key.node, around⟩ = some target :=
        (typeIn?_of_get? framed'.number?).trans ht
      exact tells_alike framed framed' (.converted hn found (.refl _)) coherent hv hstage hcode labelled

/-! ### Conditionals and calls -/

theorem conditional_labels (hg : Labelling p D g) (hi : (Law.labelling p D e).inv env s)
    (hm : p.resolve id = .ok id) (condition thenNode : NodeId) (elseNode : Option NodeId) :
    Meets (buildConditional g id condition thenNode elseNode) env s (fun _ => True) fun code s' =>
      s.Labels p D e [] { s' with visits := visitAt env s id code :: s'.visits } := by
  have hL : (Law.labelling p D e).Nested := labelling_nested
  have settled : Meets (buildConditional g id condition thenNode elseNode) env s (fun _ => True)
      (Settles p D e env s id fun code _ => Nameless code) := by
    unfold buildConditional
    refine meets_recalling (fun _ => rfl) (fun b hb sees => .recalled (.refl _) hb sees.1) fun _ => ?_
    dsimp only
    rw [meets_bind]
    refine (typeOf_labelling id hi).imp fun type s₁ h₁ => ?_
    rw [meets_bind]
    have value : (Law.labelling p D e).Keeps env (g.value condition .bool) :=
      (hg.serves condition).value .bool
    refine (value s₁ (Law.mono _ hi h₁.1)).imp fun c s₂ h₂ => ?_
    have started := h₁.1.trans h₂
    have statement : ∀ c, (Law.labelling p D e).Leaves env (inBlock (g.statement c)) :=
      fun c => hL.inBlock (hg.serves c).statement
    -- a conditional without a value has no code
    have effect : ∀ {step : Build (Option Expr)}, (Law.labelling p D e).Keeps env step →
        Returns (fun code => code = none) step → Meets step env s₂ (fun _ => True)
          (Settles p D e env s id fun code _ => Nameless code) := by
      intro step keeps none
      refine ((keeps s₂ (Law.mono _ hi started)).and (none env s₂)).imp ?_
      rintro code s₃ ⟨h₃, rfl⟩
      exact .through (started.trans h₃) nameless_none
    cases elseNode with
    | none =>
      refine effect (.hold hL.toStraight (statement thenNode) (fun _ => .plain rfl rfl rfl)
        (fun ss => List.append_nil ss) fun _ => .pure _) ?_
      exact .bind fun _ => .bind fun _ => .pure rfl
    | some elseNode =>
      refine (meets_ite _ _ _).2 ⟨fun _ => ?_, fun _ => ?_⟩
      · refine effect (.holdBoth hL.toStraight (statement thenNode) (statement elseNode)
          fun _ => .pure _) ?_
        exact .bind fun _ => .bind fun _ => .bind fun _ => .pure rfl
      · have values : ∀ c, (Law.labelling p D e).Keeps env (g.value c type) :=
          fun c => (hg.serves c).value type
        show Meets (buildChoice g id type c thenNode elseNode) env s₂ _ _
        unfold buildChoice
        rw [meets_bind]
        have looks : (Law.labelling p D e).Keeps env (arePure [thenNode, elseNode]) := .arePure _
        refine (looks s₂ (Law.mono _ hi started)).imp fun pure s₃ h₃ => ?_
        have looked := started.trans h₃
        refine (meets_ite _ _ _).2 ⟨fun _ => ?_, fun _ => ?_⟩
        · refine buildTemp_settles hi hm looked ?_ fun _ _ _ h _ => h
          have keeps : (Law.labelling p D e).Keeps env (do
              let t ← g.value thenNode type
              let e ← g.value elseNode type
              return some (Expr.select c t e)) :=
            .bind (values thenNode) fun _ => .bind (values elseNode) fun _ => .pure _
          have nameless : Returns Nameless (do
              let t ← g.value thenNode type
              let e ← g.value elseNode type
              return some (Expr.select c t e)) :=
            .bind fun _ => .bind fun _ => .pure (nameless_some rfl)
          exact (keeps s₃ (Law.mono _ hi looked)).and (nameless env s₃)
        · show Meets (declareTemp _ _ _ >>= _) env s₃ _ _
          rw [meets_bind]
          refine (declareTemp_labels (Law.mono _ hi looked) type none .mutable).imp fun x s₄ h₄ => ?_
          have declared := looked.trans h₄.1
          have branch : ∀ c, (Law.labelling p D e).Leaves env (buildBranch g x type c) :=
            fun c => .buildBranch hL (hg.serves c)
          rw [meets_bind]
          refine (branch thenNode s₄ (Law.mono _ hi declared)).imp fun ss s₅ h₅ => ?_
          rw [meets_bind]
          refine (branch elseNode s₅ (Law.mono _ (Law.mono _ hi declared) h₅)).imp fun ss' s₆ h₆ => ?_
          have built : s₄.Labels p D e (ss ++ ss') s₆ := Labels.trans h₅ h₆
          rw [meets_bind]
          refine (add_labelling (.branch c ss (some ss')) (Law.mono _ hi declared) built).imp
            fun _ s₇ h₇ => ?_
          refine .named (b := ⟨x, _, _⟩) (declared.trans h₇.1) (fun hw => h₄.2 (h₇.1.within hw))
            (.inl ?_) (.inl rfl)
          exact (h₂.trans (h₃.trans (h₄.1.trans h₇.1))).finds.types (h₁.2 id hm)
  exact settled.imp fun code s' hr => hr.log hi fun nameless _ _ => tells_nameless nameless

theorem call_labels (hg : Labelling p D g) (hi : (Law.labelling p D e).inv env s) {f : FunctionId}
    {args : List NodeId} (hn : p.node id = .ok (.call f args)) :
    Meets (buildCall g id f args) env s (fun _ => True) fun code s' =>
      s.Labels p D e [] { s' with visits := visitAt env s id code :: s'.visits } := by
  have hL : (Law.labelling p D e).Straight := labelling_nested.toStraight
  have settled : Meets (buildCall g id f args) env s (fun _ => True)
      (Settles p D e env s id fun code _ => Nameless code) := by
    unfold buildCall
    refine meets_recalling (fun _ => rfl) (fun b hb sees => .recalled (.refl _) hb sees.1) fun _ => ?_
    dsimp only
    rw [meets_bind]
    obtain ⟨around, inv⟩ := labelling_finding hi
    refine ((registerFunction_finds f s inv).and (registerFunction_still f s trivial)).imp ?_
    rintro entry s₁ ⟨⟨found, result⟩, still⟩
    have registered : s.Labels p D e [] s₁ := .of_still found.1 still
    refine meets_check fun _ => ?_
    rw [meets_bind]
    refine (hL.useFunction f s₁ (Law.mono _ hi registered)).imp fun _ s₂ h₂ => ?_
    have used := registered.trans h₂
    have arguments : (Law.labelling p D e).Keeps env
        ((args.zip entry.inputs).mapM fun a => buildArgument g entry.name a.1 a.2) :=
      .mapM fun a _ => .buildArgument (hg.serves a.1)
    rw [meets_bind]
    refine (arguments s₂ (Law.mono _ hi used)).imp fun values s₃ h₃ => ?_
    have prepared := used.trans h₃
    refine (meets_ite _ _ _).2 ⟨fun _ => ?_, fun _ => ?_⟩
    · show Meets (addStatement (.call entry.name values) >>= _) env s₃ _ _
      rw [meets_bind]
      refine (add_labelling (.call entry.name values) hi prepared).imp fun _ s₄ h₄ => ?_
      exact .through h₄.1 nameless_none
    · show Meets (declareTemp _ _ _ >>= _) env s₃ _ _
      rw [meets_bind]
      refine (declareTemp_labels (Law.mono _ hi prepared) entry.result _ _).imp fun x s₄ h₄ => ?_
      exact .named (b := ⟨x, _, _⟩) (prepared.trans h₄.1) h₄.2 (.inr ⟨f, args, hn, result⟩) (.inl rfl)
  exact settled.imp fun code s' hr => hr.log hi fun nameless _ _ => tells_nameless nameless

/-! ### Variables and varyings -/

/-- A new variable is of the type of its node. -/
theorem prepareVariable_labels (hg : Labelling p D g) (hi : (Law.labelling p D e).inv env s)
    (hm : p.resolve id = .ok id) {value : NodeId} (name : Option String) :
    Meets (prepareVariable g id value name) env s (fun _ => True) fun r s' =>
      s.Labels p D e [] s' ∧ s'.types.get? (id, Frame.current env.frames) = some r.1 := by
  have hL : (Law.labelling p D e).Straight := labelling_nested.toStraight
  unfold prepareVariable
  rw [meets_bind]
  refine (typeOf_labelling id hi).imp fun type s₁ h₁ => ?_
  have claimed : ∀ {claim : Build String}, (Law.labelling p D e).Keeps env claim →
      Meets (g.value value type >>= fun init => useType type >>= fun _ =>
        (type, init, ·) <$> claim) env s₁ (fun _ => True) fun r s' =>
          s₁.Labels p D e [] s' ∧ r.1 = type := fun hc =>
    Yields.after (P := fun r : ValueType × Expr × String => r.1 = type)
      ((hg.serves value).value type)
      (fun init => .after (hL.useType type) fun _ =>
        (Yields.ofKeeps (P := fun _ => True) hc fun _ => trivial).map fun _ _ => rfl)
      s₁ (Law.mono _ hi h₁.1)
  have typed : ∀ {r : ValueType × Expr × String} {s' : BuildState},
      s₁.Labels p D e [] s' ∧ r.1 = type → s.Labels p D e [] s' ∧
        s'.types.get? (id, Frame.current env.frames) = some r.1 := by
    rintro r s' ⟨h₂, rfl⟩
    exact ⟨h₁.1.trans h₂, h₂.finds.types (h₁.2 id hm)⟩
  cases name with
  | some x => exact (claimed (hL.claimLocal x).keeps).imp fun _ _ => typed
  | none => exact (claimed hL.claimTemp.keeps).imp fun _ _ => typed

theorem var_labels (hg : Labelling p D g) (hi : (Law.labelling p D e).inv env s)
    (hm : p.resolve id = .ok id) {value : NodeId} {name : Option String} {readOnly : Bool}
    (hn : p.node id = .ok (.var value name readOnly)) :
    Meets (buildVariable g id value name readOnly) env s (fun _ => True) fun code s' =>
      s.Labels p D e [] { s' with visits := visitAt env s id (some code) :: s'.visits } := by
  have settled : Meets (buildVariable g id value name readOnly) env s (fun _ => True) fun code s' =>
      Settles p D e env s id (fun _ _ => False) (some code) s' := by
    unfold buildVariable
    refine meets_recalling (fun _ => rfl) (fun b hb sees => .recalled (.refl _) hb sees.1) fun _ => ?_
    dsimp only
    rw [meets_bind]
    refine (prepareVariable_labels hg hi hm name).imp ?_
    rintro ⟨type, init, x⟩ s₂ ⟨h₂, typed⟩
    obtain ⟨⟨-, -, rfl⟩, -⟩ := hi
    show Meets (declareVariable id value readOnly x _ init >>= _) env s₂ _ _
    rw [meets_bind]
    refine meets_declareVariable fun m => ?_
    exact .named (b := ⟨x, _, none⟩) h₂.add
      (fun hw => Labels.typed_add hw (List.mem_singleton_self _)) (.inl typed)
      (.inr ⟨rfl, value, name, readOnly, hn⟩)
  exact settled.imp fun code s' hr => hr.log hi fun impossible _ _ => impossible.elim

/-- The name of a varying stands for the entry of the varying in the table. -/
theorem varying_labels (hg : Labelling p D g) (hi : (Law.labelling p D e).inv env s) {source : NodeId}
    {name : Option String} {interpolation : Interpolation} {sampling : Option Sampling}
    (hn : p.node id = .ok (.varying source name interpolation sampling)) :
    Meets (buildVarying g id source name interpolation sampling) env s (fun _ => True) fun code s' =>
      s.Labels p D e [] { s' with visits := visitAt env s id (some code) :: s'.visits } := by
  let R : VaryingEntry → BuildState → Prop := fun v s =>
    v.source = source ∧ ∃ location, s.varyings.get? id = some { v with location := location }
  have stable : ∀ v s s', s.Labels p D e [] s' → R v s → R v s' := by
    rintro v s s' hr ⟨hs, location, hv⟩
    obtain ⟨location', hv'⟩ := hr.finds.varyings hv
    exact ⟨hs, location', hv'⟩
  have register : ∀ s, (Law.labelling p D e).inv env s →
      Meets (registerVarying id source name interpolation sampling) env s (fun _ => True) fun v s' =>
        s.Labels p D e [] s' ∧ R v s' := by
    intro s hi
    obtain ⟨around, inv⟩ := labelling_finding hi
    obtain ⟨-, ⟨o, placed⟩, -⟩ := hi
    refine ((registerVarying_finds inv).and (registerVarying_still hn placed.regular.varyings)).imp ?_
    rintro v s' ⟨⟨found, hv⟩, entering, hs⟩
    exact ⟨.of_quiet (.of_entering entering) found.1 (.of_entering entering), hs, v.location, hv⟩
  have locate : ∀ v s, (Law.labelling p D e).inv env s → R v s →
      Meets (locateVarying id v) env s (fun _ => True) fun _ s' => s.Labels p D e [] s' := by
    rintro v s - ⟨rfl, location, hv⟩
    have entering : (Law.enteringVarying p).Keeps env (locateVarying id v) := locateVarying_entering hn
    have located : Meets (locateVarying id v) env s (fun _ => True) fun _ s' => s.Finds p s' :=
      locateVarying_finds hv
    refine (located.and (entering s trivial)).imp fun _ s' hr => ?_
    exact .of_quiet (.of_entering hr.2) hr.1 (.of_entering hr.2)
  have shift : ∀ {step : Build Unit}, (Law.labelling p D .vertex).Keeps (within env .vertex) step →
      (Law.labelling p D e).Keeps env (inStage .vertex step) := fun h =>
    h.inStage (fun _ => labelling_within .vertex) (fun _ _ hr => hr.anywhere) fun _ h => h
  have hL : (Law.labelling p D .vertex).Straight := labelling_nested.toStraight
  refine (meets_buildVarying (L := Law.labelling p D e) (M := Law.labelling p D .vertex) (R := R)
    (.assignVarying (fun _ _ => .add hL (.assign trivial) rfl) (labelling_tabular.mark id)
      (hg.serves source)) (labelling_tabular.mark id) shift (fun _ _ hv => hv.1) stable register locate
      hi).imp ?_
  rintro code s' ⟨hr, v, rfl, hs, location, hv⟩
  refine log_labels hr fun _ _ => tells_own hi hr fun e hc _ => ?_
  cases hc
  exact .varying { v with location := location } hn hv hs

/-! ### Nodes that pass on code -/

/-- A node passes on the code of another one. -/
theorem passes_labels (hi : (Law.labelling p D e).inv env s) {step : Build (Option Expr)}
    (h : Meets step env s (fun _ => True) fun code s' => s.Labels p D e [] s' ∧
      ∃ v ∈ s'.visits, v.key.stage = some env.stage ∧ v.code = code ∧
        ∃ around around', Framed p s'.frames env.frames around ∧
          Framed p s'.frames v.frames around' ∧
            s'.Alike p ⟨id, around⟩ ⟨v.key.node, around'⟩) :
    Meets step env s (fun _ => True) fun code s' =>
      s.Labels p D e [] { s' with visits := visitAt env s id code :: s'.visits } := by
  refine h.imp ?_
  rintro code s' ⟨hr, v, hv, hstage, hcode, around, around', framed, framed', alike⟩
  obtain ⟨-, -, coherent, -⟩ := Law.mono (Law.labelling p D e) hi hr
  exact log_labels hr fun _ labelled =>
    tells_alike framed framed' alike coherent hv hstage hcode labelled

/-- The code of another node under the same contexts is passed on. -/
theorem emitted_passes {c : NodeId} {env' : Env} {around : List NodeId}
    (he : Emitted p env' c code s') (hf : Framed p s'.frames env'.frames around)
    (ht : ∀ m, p.resolve c = .ok m → p.Takes σ ⟨m, around⟩) :
    ∃ v ∈ s'.visits, v.key.stage = some env'.stage ∧ v.code = code ∧
      Framed p s'.frames v.frames around ∧ s'.Alike p σ ⟨v.key.node, around⟩ := by
  obtain ⟨v, hv, hm, hstage, hframes, hcode⟩ := he
  exact ⟨v, hv, hstage, hcode, hframes ▸ hf, .taken (ht _ hm) (.refl _)⟩

theorem stack_labels (hg : Labelling p D g) (hi : (Law.labelling p D e).inv env s)
    {nodes : List NodeId} {output : Option NodeId} (hn : p.node id = .ok (.stack nodes output)) :
    Meets (buildStack g nodes output) env s (fun _ => True) fun code s' =>
      s.Labels p D e [] { s' with visits := visitAt env s id code :: s'.visits } := by
  have statements : (Law.labelling p D e).Keeps env (nodes.forM g.statement) :=
    .forM fun c _ => (hg.serves c).statement
  unfold buildStack
  rw [meets_bind]
  cases output with
  | none =>
    refine (statements s hi).imp fun _ s₁ hr => ?_
    exact log_labels hr fun _ _ => tells_nameless nameless_none
  | some c =>
    rw [← meets_bind]
    refine passes_labels hi ?_
    rw [meets_bind]
    refine (statements s hi).imp fun _ s₁ h₁ => ?_
    refine (hg.emit (Law.mono _ hi h₁)).imp ?_
    rintro code s₂ ⟨h₂, emitted⟩
    obtain ⟨-, -, -, around, framed⟩ := Law.mono (Law.labelling p D e) hi (h₁.trans h₂)
    have takes : ∀ m, p.resolve c = .ok m → p.Takes ⟨id, around⟩ ⟨m, around⟩ :=
      fun _ hm => .alike hn rfl hm
    obtain ⟨v, hv, hstage, hcode, hf, alike⟩ := emitted_passes emitted framed takes
    exact ⟨h₁.trans h₂, v, hv, hstage, hcode, around, around, framed, hf, alike⟩

/-- A node that changes what the nodes below it see passes on the code of one of them. -/
theorem shifting_labels (hg : Labelling p D g) (hi : (Law.labelling p D e).inv env s)
    (hn : p.node id = .ok n) (hs : n.shifts = true)
    (hv : ∀ source name interpolation sampling, n ≠ .varying source name interpolation sampling) :
    Meets (generateNode g id n) env s (fun _ => True) fun code s' =>
      s.Labels p D e [] { s' with visits := visitAt env s id code :: s'.visits } := by
  refine passes_labels hi ?_
  obtain ⟨surroundings, ⟨o, placed⟩, coherent, around, framed⟩ := hi
  cases n with
  | varying => exact absurd rfl (hv _ _ _ _)
  | context inner values =>
    show Meets (inContext id values (g.emit inner)) env s _ _
    rw [meets_inContext]
    let extended := s.frames.extend (Frame.current env.frames) id
    have grown : s.Labels p D e [] { s with frames := extended.2 } :=
      .of_quiet (.frames _) .extend (.frames _)
    have framed₁ := framed.extend hn
    have hi₁ : (Law.labelling p D e).inv (inside env extended.1 values)
        { s with frames := extended.2 } :=
      ⟨surroundings, ⟨o, (placed.mono grown.advances).inside extended.1 values⟩,
        grown.finds.coherent coherent, id :: around, framed₁⟩
    refine (hg.emit hi₁).imp ?_
    rintro code s' ⟨hr, emitted⟩
    obtain ⟨v, hv, hstage, hcode, hf, alike⟩ :=
      emitted_passes emitted (framed₁.mono hr.finds.frames) fun m hm => .inside hn hm
    exact ⟨grown.trans hr, v, hv, hstage, hcode, around, id :: around,
      framed.mono (grown.trans hr).finds.frames, hf, alike⟩
  | contextValue key fallback =>
    show Meets (withContextValue key fallback g.emit) env s _ _
    rw [meets_withContextValue]
    rcases framed.lookup? key with ⟨hl, hp⟩ | ⟨c, frames, outer, hl, hp, framed₁⟩
    · rw [hl]
      cases fallback with
      | none => trivial
      | some c =>
        refine (hg.emit ⟨surroundings, ⟨o, placed⟩, coherent, around, framed⟩).imp ?_
        rintro code s' ⟨hr, emitted⟩
        have framed' := framed.mono hr.finds.frames
        obtain ⟨v, hv, hstage, hcode, hf, alike⟩ :=
          emitted_passes emitted framed' fun m hm => .fallback hn hp hm
        exact ⟨hr, v, hv, hstage, hcode, around, around, framed', hf, alike⟩
    · rw [hl]
      have hi₁ : (Law.labelling p D e).inv { env with frames := frames } s :=
        ⟨surroundings, ⟨o, placed.frames frames⟩, coherent, outer, framed₁⟩
      refine (hg.emit hi₁).imp ?_
      rintro code s' ⟨hr, emitted⟩
      obtain ⟨v, hv, hstage, hcode, hf, alike⟩ :=
        emitted_passes emitted (framed₁.mono hr.finds.frames) fun m hm => .lent hn hp hm
      exact ⟨hr, v, hv, hstage, hcode, around, outer, framed.mono hr.finds.frames, hf, alike⟩
  | cache inner shares =>
    unfold generateNode
    rw [meets_bind, meets_cacheScope, meets_inScope]
    obtain ⟨advances, placed₁⟩ := placed.cacheScope hn rfl
    have grown : s.Labels p D e [] { s with cache := (s.cache.scopeFor env.scope id shares).2 } :=
      .of_quiet advances (.of_eq rfl rfl rfl rfl) .scopeFor
    let inner' : Env := { env with scope := (s.cache.scopeFor env.scope id shares).1 }
    have hi₁ : (Law.labelling p D e).inv inner'
        { s with cache := (s.cache.scopeFor env.scope id shares).2 } :=
      ⟨surroundings, ⟨_, placed₁⟩, grown.finds.coherent coherent, around, framed⟩
    refine (hg.emit hi₁).imp ?_
    rintro code s' ⟨hr, emitted⟩
    have framed' := framed.mono (grown.trans hr).finds.frames
    obtain ⟨v, hv, hstage, hcode, hf, alike⟩ :=
      emitted_passes emitted framed' fun m hm => .alike hn rfl hm
    exact ⟨grown.trans hr, v, hv, hstage, hcode, around, around, framed', hf, alike⟩
  | _ => cases hs

/-! ### All nodes -/

theorem computation?_of_isNameless (hn : n.isNameless = true) : computation? g id n = none := by
  cases n <;> first | rfl | cases hn

/-- The code of such a node is a new expression. -/
theorem nameless_labels (hg : Labelling p D g) (hi : (Law.labelling p D e).inv env s)
    (hn : n.isNameless = true) : Meets (generateNode g id n) env s (fun _ => True) fun code s' =>
      s.Labels p D e [] { s' with visits := visitAt env s id code :: s'.visits } := by
  have hL : (Law.labelling p D e).Nested := labelling_nested
  have serves : ∀ c, (Law.labelling p D e).Serves env g c := hg.serves
  have keeps : (Law.labelling p D e).Keeps env (generateNode g id n) := by
    cases hp : isImpure n with
    | false =>
      refine .generatePlain hL.toPlain ?_ hp (fun c _ => serves c) ?_ ?_
      · cases n <;> first | rfl | cases hn
      · intro step hc
        cases (computation?_of_isNameless hn).symm.trans hc
      · rintro _ _ _ rfl
        cases hn
    | true =>
      cases n with
      | assign => exact .withoutValue (.buildAssign hL.toStraight (serves _) (serves _))
      | loop => exact .withoutValue (.buildLoop hL fun c _ => serves c)
      | jump j => exact .withoutValue (.buildJump hL.toStraight j)
      | conditional | call | stack | var => cases hn
      | _ => cases hp
  refine ((keeps s hi).and (generateNode_nameless hn env s)).imp fun code s' hr => ?_
  exact log_labels hr.1 fun _ _ => tells_nameless hr.2

/-- The name of an input or of a counter is given. -/
theorem given_labels (hi : (Law.labelling p D e).inv env s) (hn : p.node id = .ok n)
    (given : n.isGiven = true) : Meets (generateNode g id n) env s (fun _ => True) fun code s' =>
      s.Labels p D e [] { s' with visits := visitAt env s id code :: s'.visits } := by
  have keeps : (Law.labelling p D e).Keeps env (generateNode g id n) := by
    cases n with
    | property name type => exact .map _ (labelling_nested.property name type)
    | loopIndex loop param => exact .map _ (.buildCounter loop param)
    | _ => cases given
  refine (keeps s hi).imp fun code s' hr => ?_
  exact log_labels hr fun _ _ => tells_own hi hr fun e _ _ => .given hn given

theorem generateNode_labels (hg : Labelling p D g) (hi : (Law.labelling p D e).inv env s)
    (hm : p.resolve id = .ok id) (hn : p.node id = .ok n) :
    Meets (generateNode g id n) env s (fun _ => True) fun code s' =>
      s.Labels p D e [] { s' with visits := visitAt env s id code :: s'.visits } := by
  cases n with
  | varying source name interpolation sampling =>
    unfold generateNode
    rw [meets_map]
    exact varying_labels hg hi hn
  | var value name readOnly =>
    unfold generateNode
    rw [meets_map]
    exact var_labels hg hi hm hn
  | convert source target => exact convert_labels hg hi hm hn
  | conditional condition thenNode elseNode =>
    exact conditional_labels hg hi hm condition thenNode elseNode
  | call f args => exact call_labels hg hi hn
  | stack nodes output => exact stack_labels hg hi hn
  | property | loopIndex => exact given_labels hi hn rfl
  | context | contextValue | cache =>
    refine shifting_labels hg hi hn rfl ?_
    rintro _ _ _ _ ⟨⟩
  | texture | operator | unary | math | join | struct | array =>
    refine computation_labels hg hi hm rfl ?_
    rintro _ _ ⟨⟩
  | _ => exact nameless_labels hg hi rfl

/-- Generation keeps up what is known of names. -/
theorem generator_labels (fuel : Nat) : Labelling p D (generator fuel) := by
  induction fuel with
  | zero => exact ⟨fun _ => trivial, fun _ _ => trivial⟩
  | succ fuel ih =>
    refine ⟨fun {e env id s} hi => ?_, fun {e env id} s hi => ?_⟩
    · obtain rfl := hi.1.1
      refine meets_emitNode (fun _ => trivial) fun m n hm hn => ?_
      refine (generateNode_labels ih hi (Plan.resolve_of_resolve hm) hn).imp fun code s' hr => ?_
      refine ⟨hr, visitAt env s m code, .head _, ?_, rfl, rfl, rfl⟩
      exact hm
    · obtain rfl := hi.1.1
      refine Keeps.resolve (fun m hm => .located (.node fun n hn => ?_)) s hi
      refine .bind (typeOf_keeps m) fun type => .bind ?_ fun e => .pure _
      exact .placeOf labelling_nested.toPlain (fun _ hi => (ih.emit hi).imp fun _ _ hr => hr.1)
        fun c _ => ih.serves c

/-- After a run the types that were found fit together, and all names stand for what was declared with
the type of a node. -/
theorem run_labelled {rs : List (Stage × NodeId)} (h : run p rs = .ok s) :
    s.Coherent p ∧ s.Labelled p fun t d => d ∈ s.declares t := by
  let D : Stage → String × ValueType → Prop := fun t d => d ∈ s.declares t
  obtain ⟨s₀, hanalyze, hgenerate⟩ := of_run h
  obtain ⟨regular, quiet, -⟩ := analyze_covers _ hanalyze
  have coherent : s₀.Coherent p := analyze_coherent hanalyze
  have unvisited : s₀.visits = [] := quiet.visits
  have labelled : s₀.Labelled p D := by
    refine ⟨fun k b hb => ?_, fun v hv => ?_⟩
    · cases (quiet.bound k).symm.trans hb
    · rw [unvisited] at hv
      cases hv
  have walk : ∀ r ∈ rs, (Law.labellingRoots p D).Keeps (Env.root p (rs.map Prod.fst) r.1)
      (generateStage r.2) := by
    rintro r - s ⟨surroundings, placed, coherent⟩
    have keeps : (Law.labelling p D r.1).Keeps (Env.root p (rs.map Prod.fst) r.1)
        (generateStage r.2) := .generateStage labelling_tabular.finish ((generator_labels _).serves _)
    refine (keeps s ⟨⟨rfl, rfl, rfl⟩, ⟨.root, placed⟩, coherent, [], trivial⟩).imp fun _ s' hr => ?_
    exact hr.anywhere
  have start : ∀ r ∈ rs, (Law.labellingRoots p D).inv (Env.root p (rs.map Prod.fst) r.1) s₀ :=
    fun r _ => ⟨⟨rfl, rfl, rfl⟩, .root regular _ r.1, coherent⟩
  have all := Law.Keeps.atRoots start walk
  rw [hgenerate] at all
  have within : s.Among D .vertex [] := ⟨fun _ _ hd => hd, by rintro d ⟨⟩⟩
  exact ⟨all.finds.coherent coherent, all.labelled within labelled⟩

end Build

end ShaderGraph
