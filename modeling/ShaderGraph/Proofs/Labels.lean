import ShaderGraph.Proofs.Collected
import ShaderGraph.Proofs.FoundTypes
import ShaderGraph.Proofs.OperandTypes
import ShaderGraph.Proofs.Recalled
import ShaderGraph.Proofs.Walk

/-!
# Names and their types

The code of most nodes is no name, and a value that `buildTemp` may bind is a new expression, unless
the node converts a value to the type that it has. Else the code is that of a local or of a varying.
Either the node is what the name stands for, or its code is that of another node, which it passes on
(`BuildState.Shows`); then it takes the type of that node, too. What a name stands for is a value that was bound to it, a variable, a
varying or an input (`BuildState.Means`): where the name was declared, it was declared with the type
that was found for the node there (`BuildState.Coins`). `BuildState.Labelled` says this of all visits
and of all names that values are bound to, and generation keeps it up (`run_labelled`).
-/

namespace ShaderGraph

/-! ### Code without a name -/

/-- Whether an expression is the name of a local or of a varying. -/
def Expr.isName : Expr → Bool
  | reference (.local _) | reference (.varying ..) => true
  | _ => false

/-- Scalars and vectors of one kind and size are of one type. -/
theorem ValueType.eq_of_components {a b : ValueType} {k : ScalarKind} (ha : a.scalarKind = some k)
    (hb : b.scalarKind = some k) (hma : a.isMatrix = false) (hmb : b.isMatrix = false)
    (h : a.components.toNat = b.components.toNat) : a = b := by
  obtain ⟨s, rfl⟩ := shaped_of_scalarKind ha hma
  obtain ⟨s', rfl⟩ := shaped_of_scalarKind hb hmb
  rw [components_shaped, components_shaped] at h
  rw [count_inj.1 (UInt32.toNat_inj.1 h)]

/-- A conversion to another type is a new expression. -/
theorem Expr.isName_convert {e e' : Expr} {source target : ValueType}
    (h : e.convert source target = .ok e') (hn : source ≠ target) : e'.isName = false := by
  unfold Expr.convert at h
  rw [if_neg hn] at h
  split at h
  · cases h
  next matrices =>
  rw [Bool.or_eq_true, not_or, Bool.not_eq_true, Bool.not_eq_true] at matrices
  split at h
  · next k l hk hl =>
    dsimp only at h
    by_cases size : source.components.toNat = target.components.toNat
    · -- the kinds differ, since the sizes do not
      have kinds : k ≠ l := by
        rintro rfl
        exact hn (ValueType.eq_of_components hk hl matrices.1 matrices.2 size)
      rw [if_pos size, if_neg kinds] at h
      cases h
      rfl
    · rw [if_neg size] at h
      split at h
      · cases h
        rfl
      · split at h
        · cases h
          rfl
        · cases h
          rfl
  · cases h

/-- Whether the code of a node is a new expression, or none. -/
def NodeOf.isNameless {ρ μ : Type} : NodeOf ρ μ → Bool
  | const .. | uniform .. | meshAttribute .. | builtin _ | storageBuffer .. | assign .. | split .. => true
  | loop .. | jump _ | structType .. | member .. | index .. | remap .. | custom _ => true
  | _ => false

namespace Build

variable {g : Generator} {id : NodeId} {n : Node}

/-- The code is no name. -/
def Nameless (code : Option Expr) : Prop := ∀ e ∈ code, e.isName = false

theorem nameless_none : Nameless none := by rintro e ⟨⟩

theorem nameless_some {e : Expr} (h : e.isName = false) : Nameless (some e) := by
  rintro _ ⟨⟩
  exact h

theorem nameless_map {code : Option Expr} {f : Expr → Expr} (h : ∀ e, (f e).isName = false) :
    Nameless (code.map f) := by
  cases code with
  | none => exact nameless_none
  | some e => exact nameless_some (h e)

/-- A step that gives a new expression. -/
theorem Returns.nameless {step : Build Expr} (h : Returns (fun e => e.isName = false) step) :
    Returns Nameless (some <$> step) := by
  intro env s
  rw [meets_map]
  exact (h env s).imp fun e _ he => nameless_some he

/-! ### Inputs -/

theorem buildConstant_nameless (type : ValueType) (values : List Float) :
    Returns (fun e => e.isName = false) (buildConstant type values) := by
  refine .bind fun _ => .ite (.pure ?_) (.bind fun _ => .pure rfl)
  cases hl : (constantComponents type values).map (Expr.literal (type.scalarKind.getD .float)) with
  | nil => rfl
  | cons e rest =>
    obtain ⟨x, -, rfl⟩ := List.mem_map.1 (hl ▸ List.mem_cons_self : e ∈ List.map _ _)
    rfl

theorem useUniform_nameless (group : String) (u : UniformEntry) :
    Returns (fun e => e.isName = false) (useUniform group u) :=
  .bind fun _ => .ite (.bind fun _ => .bind fun _ => .bind fun _ => .pure rfl) (.bind fun _ => .pure rfl)

theorem buildAttribute_nameless (name : String) (type : Option ValueType) :
    Returns (fun e => e.isName = false) (buildAttribute name type) :=
  .bind fun _ => .when fun _ => .bind fun _ =>
    .ite (.bind fun _ => .bind fun _ => .pure rfl) (.bind fun _ => .pure rfl)

theorem useBuiltin_nameless (b : Builtin) :
    Returns (fun e => e.isName = false) (useBuiltin b) :=
  .bind fun _ => .when fun _ => .bind fun _ => .pure rfl

theorem buildStorage_nameless (name : String) (element : ValueType) (count : Option UInt32)
    (access : Access) :
    Returns (fun e => e.isName = false) (buildStorage name element count access) := by
  refine .bind fun b => ?_
  have declare : Returns (fun e : Expr => e.isName = false) (do
      markType b.element
      modifyHere fun h => { h with storage := appendNew h.storage name }
      return .reference (.storage b.name)) := .bind fun _ => .bind fun _ => .pure rfl
  exact .ite (.bind fun _ => .bind fun _ => declare) declare

/-! ### Values -/

theorem buildTexture_nameless (name : String) (uv : NodeId) (level : Option NodeId) :
    Returns (fun e => e.isName = false) (buildTexture g name uv level) :=
  .bind fun _ => .bind fun _ => .bind fun _ => .pure rfl

theorem buildOperator_nameless (op : BinaryOp) (left right : NodeId) :
    Returns (fun e => e.isName = false) (buildOperator g op left right) :=
  .bind fun _ => .bind fun _ => .bind fun _ => .bind fun _ => .bind fun _ =>
    .ite (.pure rfl) (.pure rfl)

theorem buildUnary_nameless (op : UnaryOp) (operand : NodeId) :
    Returns Nameless (buildUnary g op operand) :=
  .bind fun _ => .bind fun _ => .bind fun _ => .pure (nameless_map fun _ => rfl)

theorem buildMath_nameless (m : MathMethod) (args : List NodeId) :
    Returns (fun e => e.isName = false) (buildMath g id m args) :=
  .bind fun _ => .when fun _ => .bind fun _ => .bind fun _ => .bind fun _ => .bind fun _ => .pure rfl

theorem buildJoin_nameless (parts : List NodeId) :
    Returns (fun e => e.isName = false) (buildJoin g id parts) :=
  .bind fun _ => .bind fun _ => .bind fun _ => .pure rfl

theorem buildStruct_nameless (values : List NodeId) :
    Returns (fun e => e.isName = false) (buildStruct g id values) :=
  .bind fun _ => .bind fun _ => .when fun _ => .bind fun _ => .bind fun _ => .pure rfl

theorem buildArray_nameless (element : ValueType) (values : List NodeId) :
    Returns (fun e => e.isName = false) (buildArray g element values) :=
  .bind fun _ => .bind fun _ => .bind fun _ => .pure rfl

theorem buildElement_nameless (base : Option Expr) (source i : NodeId) :
    Returns Nameless (buildElement g base source i) :=
  .bind fun _ => .bind fun _ => .bind fun _ => .bind fun _ => .bind fun _ =>
    .pure (nameless_map fun _ => rfl)

/-- The value of a node that is bound to a name when it is referred to more than once is a new
expression, unless the node is a conversion. -/
theorem computation_nameless {step : Build (Option Expr)} (h : Law.computation? g id n = some step)
    (hn : ∀ source target, n ≠ .convert source target) : Returns Nameless step := by
  cases n with
  | texture name uv level =>
    cases h
    exact (buildTexture_nameless name uv level).nameless
  | operator op left right =>
    cases h
    exact (buildOperator_nameless op left right).nameless
  | unary op operand =>
    cases h
    exact buildUnary_nameless op operand
  | math method args =>
    cases h
    exact (buildMath_nameless method args).nameless
  | join parts type =>
    cases h
    exact (buildJoin_nameless parts).nameless
  | convert source target => exact absurd rfl (hn source target)
  | struct layout values =>
    cases h
    exact (buildStruct_nameless values).nameless
  | array element values =>
    cases h
    exact (buildArray_nameless element values).nameless
  | _ => cases h

theorem withoutValue_nameless (step : Build Unit) : Returns Nameless (withoutValue step) :=
  .bind fun _ => .pure nameless_none

theorem generateNode_nameless (h : n.isNameless = true) : Returns Nameless (generateNode g id n) := by
  cases n with
  | const type values => exact (buildConstant_nameless type values).nameless
  | uniform name type group update value =>
    exact .bind fun u => (useUniform_nameless u.1 u.2).nameless
  | meshAttribute name type => exact (buildAttribute_nameless name type).nameless
  | builtin b => exact (useBuiltin_nameless b).nameless
  | storageBuffer name element count access =>
    exact (buildStorage_nameless name element count access).nameless
  | assign | loop | jump => exact withoutValue_nameless _
  | split source components =>
    exact .bind fun _ => .bind fun _ => .bind fun _ => .bind fun _ => .pure (nameless_map fun _ => rfl)
  | member base name =>
    exact .bind fun _ => .bind fun _ => .bind fun _ => .pure (nameless_map fun _ => rfl)
  | index base i => exact .bind fun e => buildElement_nameless e base i
  | structType | remap | custom => exact .fail _
  | _ => cases h

end Build

/-! ### Names and their types -/

open Build

/-- The name that a statement itself declares, with its type. -/
def Statement.typed : Statement → List (String × ValueType)
  | declare name type .. => [(name, type)]
  | _ => []

/-- Whether the value of a node has a name that no statement of the body declares with a type. -/
def NodeOf.isGiven {ρ μ : Type} : NodeOf ρ μ → Bool
  | property .. | loopIndex .. => true
  | _ => false

namespace BuildState

variable {p : Plan} {D : Stage → String × ValueType → Prop} {s s' s'' : BuildState} {σ τ υ : Situation}
  {t : ValueType} {u v w : Visit} {e : Expr} {x : String}

/-- The type that was found for the node of a visit under the contexts of the visit. -/
def typeAt? (s : BuildState) (v : Visit) : Option ValueType := s.types.get? (v.key.node, v.frame)

/-- A node passes on the code of another, and its type with it. -/
inductive Alike (p : Plan) (s : BuildState) : Situation → Situation → Prop
  | refl (σ : Situation) : Alike p s σ σ
  | taken {σ τ υ : Situation} : p.Takes σ τ → Alike p s τ υ → Alike p s σ υ
  | converted {id source m : NodeId} {target : ValueType} {around : List NodeId} {υ : Situation} :
      p.node id = .ok (.convert source target) → s.typeIn? ⟨m, around⟩ = some target →
      Alike p s ⟨m, around⟩ υ → Alike p s ⟨id, around⟩ υ

theorem Alike.trans (h : s.Alike p σ τ) (h' : s.Alike p τ υ) : s.Alike p σ υ := by
  induction h with
  | refl => exact h'
  | taken ht _ ih => exact .taken ht (ih h')
  | converted hn ht _ ih => exact .converted hn ht (ih h')

theorem Alike.mono (hf : s.Finds p s') (h : s.Alike p σ τ) : s'.Alike p σ τ := by
  induction h with
  | refl => exact .refl _
  | taken ht _ ih => exact .taken ht ih
  | converted hn ht _ ih => exact .converted hn (hf.typeIn? ht) ih

theorem Alike.typeIn? (hs : s.Coherent p) (h : s.Alike p σ τ) (ht : s.typeIn? σ = some t) :
    s.typeIn? τ = some t := by
  induction h with
  | refl => exact ht
  | taken hτ _ ih => exact ih ((hs.fits ht).taken hτ)
  | converted hn found _ ih =>
    have same := (hs.fits ht).convert hn
    exact ih (same ▸ found)

/-- A visit shows the code of another: its node passes on the code of the other node. -/
structure Shows (p : Plan) (s : BuildState) (v u : Visit) : Prop where
  stage : u.key.stage = v.key.stage
  alike : ∃ around around', Framed p s.frames v.frames around ∧ Framed p s.frames u.frames around' ∧
    s.Alike p ⟨v.key.node, around⟩ ⟨u.key.node, around'⟩

theorem Shows.mono (hf : s.Finds p s') (h : s.Shows p v u) : s'.Shows p v u := by
  obtain ⟨stage, around, around', hv, hu, alike⟩ := h
  exact ⟨stage, around, around', hv.mono hf.frames, hu.mono hf.frames, alike.mono hf⟩

/-- What a visit shows has the same type. -/
theorem Shows.typeAt? (hs : s.Coherent p) (h : s.Shows p v u) (ht : s.typeAt? v = some t) :
    s.typeAt? u = some t := by
  obtain ⟨-, around, around', hv, hu, alike⟩ := h
  have found : s.typeIn? ⟨v.key.node, around⟩ = some t := (typeIn?_of_get? hv.number?).trans ht
  exact (typeIn?_of_get? hu.number?).symm.trans (alike.typeIn? hs found)

/-- The node of a visit is of a type: the one that was found there, or that of the result of a call. -/
def Types (p : Plan) (s : BuildState) (w : Visit) (t : ValueType) : Prop :=
  s.typeAt? w = some t ∨
    ∃ f args, p.node w.key.node = .ok (.call f args) ∧ p.resultOf? f = some t

/-- At a visit a name was coined: it was declared with the type of the node. -/
structure Coins (p : Plan) (D : Stage → String × ValueType → Prop) (s : BuildState) (w : Visit)
    (x : String) : Prop where
  code : w.code = some (localName x)
  typed : ∃ e t, w.key.stage = some e ∧ D e (x, t) ∧ s.Types p w t

/-- The node of a visit is what its name stands for. -/
inductive Means (p : Plan) (D : Stage → String × ValueType → Prop) (s : BuildState) (u : Visit) :
    Expr → Prop
  | given {n : Node} {e : Expr} : p.node u.key.node = .ok n → n.isGiven = true → Means p D s u e
  | value {w : Visit} {x : String} : w ∈ s.visits → w.key = u.key → s.Coins p D w x →
      w.frame = u.frame → Means p D s u (localName x)
  | var {w : Visit} {x : String} {value : NodeId} {name : Option String} {readOnly : Bool} :
      p.node u.key.node = .ok (.var value name readOnly) → w ∈ s.visits → w.key = u.key →
      s.Coins p D w x → Means p D s u (localName x)
  | varying {source : NodeId} {name : Option String} {interpolation : Interpolation}
      {sampling : Option Sampling} {e : Stage} (entry : VaryingEntry) :
      p.node u.key.node = .ok (.varying source name interpolation sampling) →
      s.varyings.get? u.key.node = some entry → entry.source = source →
      Means p D s u (.reference (.varying e entry.name))

theorem Coins.mono (hf : s.Finds p s') (h : s.Coins p D w x) : s'.Coins p D w x := by
  obtain ⟨code, e, t, stage, declared, types⟩ := h
  exact ⟨code, e, t, stage, declared, types.imp hf.types id⟩

theorem Means.mono (hf : s.Finds p s') (hv : s.visits ⊆ s'.visits) (h : s.Means p D u e) :
    s'.Means p D u e := by
  cases h with
  | given hn hg => exact .given hn hg
  | value hw hk hd frame => exact .value (hv hw) hk (hd.mono hf) frame
  | var hn hw hk hd => exact .var hn (hv hw) hk (hd.mono hf)
  | varying entry hn hg hs =>
    obtain ⟨location, hg'⟩ := hf.varyings hg
    exact .varying { entry with location := location } hn hg' hs

/-- The name that a visit gives is that of what the node or another one stands for. -/
def Tells (p : Plan) (D : Stage → String × ValueType → Prop) (s : BuildState) (v : Visit) : Prop :=
  ∀ e, v.code = some e → e.isName = true →
    ∃ u ∈ s.visits, u.code = some e ∧ s.Shows p v u ∧ s.Means p D u e

theorem Tells.mono (hf : s.Finds p s') (hv : s.visits ⊆ s'.visits) (h : s.Tells p D v) :
    s'.Tells p D v := by
  intro e hc hn
  obtain ⟨u, hu, hcode, shows', owns⟩ := h e hc hn
  exact ⟨u, hv hu, hcode, shows'.mono hf, owns.mono hf hv⟩

/-- A visit at which the name was coined that a node is bound to. -/
structure Origin (p : Plan) (D : Stage → String × ValueType → Prop) (s : BuildState) (k : CacheKey)
    (b : BoundName) (w : Visit) : Prop where
  visit : w ∈ s.visits
  key : w.key = k
  coins : s.Coins p D w b.name
  frame : b.frame = some w.frame ∨
    b.frame = none ∧ ∃ value name readOnly, p.node k.node = .ok (.var value name readOnly)

/-- All names stand for what was declared with the type of a node. -/
structure Labelled (p : Plan) (D : Stage → String × ValueType → Prop) (s : BuildState) : Prop where
  bound : ∀ k b, s.cache.bound? k = some b → ∃ w, s.Origin p D k b w
  told : ∀ v ∈ s.visits, s.Tells p D v

theorem Origin.mono {k : CacheKey} {b : BoundName} (hf : s.Finds p s') (hv : s.visits ⊆ s'.visits)
    (h : s.Origin p D k b w) : s'.Origin p D k b w :=
  ⟨hv h.visit, h.key, h.coins.mono hf, h.frame⟩

theorem Finds.log (v : Visit) : s.Finds p { s with visits := v :: s.visits } := .of_eq rfl rfl rfl rfl

/-- A visit is logged whose name stands for something. -/
theorem Labelled.log (h : s.Labelled p D)
    (hv : BuildState.Tells p D { s with visits := v :: s.visits } v) :
    BuildState.Labelled p D { s with visits := v :: s.visits } := by
  have finds := Finds.log (p := p) (s := s) v
  have more : s.visits ⊆ v :: s.visits := List.subset_cons_self v _
  refine ⟨fun k b hb => ?_, fun w hw => ?_⟩
  · obtain ⟨w, origin⟩ := h.bound k b hb
    exact ⟨w, origin.mono finds more⟩
  · rcases List.mem_cons.1 hw with rfl | hw
    · exact hv
    · exact (h.told w hw).mono finds more

theorem Labelled.of_same (h : s.Labelled p D) (hf : s.Finds p s') (hv : s'.visits = s.visits)
    (hb : ∀ k, s'.cache.bound? k = s.cache.bound? k) : s'.Labelled p D := by
  have more : s.visits ⊆ s'.visits := hv ▸ List.Subset.refl _
  refine ⟨fun k b hbound => ?_, fun w hw => ?_⟩
  · obtain ⟨w, origin⟩ := h.bound k b (hb k ▸ hbound)
    exact ⟨w, origin.mono hf more⟩
  · exact (h.told w (hv ▸ hw)).mono hf more

/-! ### Declarations -/

/-- The names that the open blocks of a stage declare, with their types. -/
def declares (s : BuildState) (t : Stage) : List (String × ValueType) :=
  (s.stages.get t).collect Statement.typed

/-- What is declared so far is among `D`, with what is in the statements `ss` of the stage `e` that
belong to no open block. -/
structure Among (D : Stage → String × ValueType → Prop) (e : Stage) (ss : List Statement)
    (s : BuildState) : Prop where
  blocks : ∀ t, ∀ d ∈ s.declares t, D t d
  rest : ∀ d ∈ Statement.collectIn Statement.typed ss, D e d

/-- Between two states of generation names may be declared and visits made; what was known of names
stays right. -/
structure Labels (p : Plan) (D : Stage → String × ValueType → Prop) (e : Stage) (ss : List Statement)
    (s s' : BuildState) : Prop where
  advances : s.Advances p s'
  finds : s.Finds p s'
  visits : s.visits ⊆ s'.visits
  within : s'.Among D e ss → s.Among D e []
  labelled : s'.Among D e ss → s.Labelled p D → s'.Labelled p D

namespace Labels

variable {b e' : Stage} {ss ss' : List Statement}

theorem refl (s : BuildState) : s.Labels p D b [] s :=
  ⟨.refl s, .refl s, List.Subset.refl _, id, fun _ h => h⟩

theorem trans (h : s.Labels p D b ss s') (h' : s'.Labels p D b ss' s'') :
    s.Labels p D b (ss ++ ss') s'' := by
  have split : s''.Among D b (ss ++ ss') → s''.Among D b ss' ∧ s'.Among D b ss := by
    rintro ⟨blocks, rest⟩
    rw [Statement.collectIn_append] at rest
    have later : s''.Among D b ss' := ⟨blocks, fun d hd => rest d (List.mem_append_right _ hd)⟩
    exact ⟨later, (h'.within later).blocks, fun d hd => rest d (List.mem_append_left _ hd)⟩
  refine ⟨h.advances.trans h'.advances, h.finds.trans h'.finds, List.Subset.trans h.visits h'.visits,
    fun hw => h.within (split hw).2, fun hw hs => ?_⟩
  exact h'.labelled (split hw).1 (h.labelled (split hw).2 hs)

/-- A change that neither visits nor states nor binds anything. -/
theorem of_quiet (ha : s.Advances p s') (hf : s.Finds p s') (hq : s.Quiet s') :
    s.Labels p D b [] s' := by
  have same : ∀ t, s'.declares t = s.declares t := fun t => by
    unfold declares StageBuild.collect
    rw [hq.inner, hq.outer]
  refine ⟨ha, hf, hq.visits ▸ List.Subset.refl _, fun hw => ⟨fun t d hd => ?_, hw.rest⟩, fun _ hs => ?_⟩
  · exact hw.blocks t d (same t ▸ hd)
  · exact hs.of_same hf hq.visits hq.bound

theorem of_still (hf : s.Finds p s') (h : s'.still = s.still) : s.Labels p D b [] s' :=
  of_quiet (.of_still h) hf (.of_still h)

theorem of_core (h : s'.core = s.core) : s.Labels p D b [] s' :=
  of_still (.of_core h) (still_of_core h)

/-- Where nothing is left over, the stage does not matter. -/
theorem anywhere (h : s.Labels p D b [] s') : s.Labels p D e' [] s' := by
  have other : ∀ {b b' : Stage} {s : BuildState}, s.Among D b [] → s.Among D b' [] :=
    fun hw => ⟨hw.blocks, by rintro d ⟨⟩⟩
  exact ⟨h.advances, h.finds, h.visits, fun hw => other (h.within (other hw)),
    fun hw => h.labelled (other hw)⟩

/-- A statement is added to the open block, with the blocks that it holds. -/
theorem add {st : Statement} (h : s.Labels p D b st.blocks s') :
    s.Labels p D b [] { s' with stages := s'.stages.modify b fun h => h.add st } := by
  have finds : s'.Finds p { s' with stages := s'.stages.modify b fun h => h.add st } :=
    .of_eq rfl rfl rfl rfl
  have before : BuildState.Among D b [] { s' with stages := s'.stages.modify b fun h => h.add st } →
      s'.Among D b st.blocks := by
    intro hw
    have moved := hw.blocks
    unfold declares at moved
    refine ⟨fun t d hd => moved t d ?_, fun d hd => moved b d ?_⟩
    · rw [PerStage.get_modify]
      split
      · exact StageBuild.collect_add.mem_iff.2 (List.mem_append_left _ hd)
      · exact hd
    · rw [PerStage.get_modify, if_pos rfl, StageBuild.collect_add.mem_iff, Statement.collect_eq]
      exact List.mem_append_right _ (List.mem_append_right _ hd)
  exact ⟨h.advances.trans (.of_eq rfl rfl rfl), h.finds.trans finds, h.visits,
    fun hw => h.within (before hw),
    fun hw hs => (h.labelled (before hw) hs).of_same finds rfl fun _ => rfl⟩

/-- What a statement that was added declares is declared. -/
theorem typed_add {st : Statement}
    (hw : BuildState.Among D b [] { s with stages := s.stages.modify b fun h => h.add st })
    {d : String × ValueType} (hd : d ∈ st.typed) : D b d := by
  refine hw.blocks b d ?_
  unfold declares
  rw [PerStage.get_modify, if_pos rfl, StageBuild.collect_add.mem_iff, Statement.collect_eq]
  exact List.mem_append_right _ (List.mem_append_left _ hd)

/-- A block was opened and filled, and is closed; its statements are left over. -/
theorem closeBlock
    (h : BuildState.Labels p D b [] { s with stages := s.stages.modify b StageBuild.openBlock } s') :
    s.Labels p D b (s'.stages.get b).innerStatements
      { s' with stages := s'.stages.modify b StageBuild.closeBlock } := by
  have opened : s.Labels p D b [] { s with stages := s.stages.modify b StageBuild.openBlock } := by
    refine ⟨.of_eq rfl rfl rfl, .of_eq rfl rfl rfl rfl, List.Subset.refl _, fun hw => ?_, fun _ hs => ?_⟩
    · have moved := hw.blocks
      unfold declares at moved
      refine ⟨fun t d hd => moved t d ?_, hw.rest⟩
      rw [PerStage.get_modify]
      split
      · exact StageBuild.collect_openBlock ▸ hd
      · exact hd
    · exact hs.of_same (.of_eq rfl rfl rfl rfl) rfl fun _ => rfl
  have inside := opened.trans h
  have finds : s'.Finds p { s' with stages := s'.stages.modify b StageBuild.closeBlock } :=
    .of_eq rfl rfl rfl rfl
  have before : BuildState.Among D b (s'.stages.get b).innerStatements
      { s' with stages := s'.stages.modify b StageBuild.closeBlock } → s'.Among D b [] := by
    rintro ⟨blocks, rest⟩
    refine ⟨fun t d hd => ?_, by rintro d ⟨⟩⟩
    unfold declares at blocks hd
    by_cases ht : t = b
    · subst ht
      have held := blocks t d
      rw [PerStage.get_modify, if_pos rfl] at held
      rw [← StageBuild.collect_closeBlock] at hd
      exact (List.mem_append.1 hd).elim (rest d) held
    · have held := blocks t d
      rw [PerStage.get_modify, if_neg ht] at held
      exact held hd
  exact ⟨inside.advances.trans (.of_eq rfl rfl rfl), inside.finds.trans finds, inside.visits,
    fun hw => inside.within (before hw),
    fun hw hs => (inside.labelled (before hw) hs).of_same finds rfl fun _ => rfl⟩

end Labels

end BuildState

end ShaderGraph
