import ShaderGraph.Proofs.Collected
import ShaderGraph.Proofs.LexicalTypes
import ShaderGraph.Proofs.Listing

/-!
# Reading generated code

A `Reading` is the code that some programs consist of in the end. While they are generated, what
was generated so far is a part of it (`Reading.Fits`), and each name that generation remembers reads
as what the node stands for under the contexts that it is remembered for (`Reading.Recalls`).

`Reading.Goes` is about two states of generation: what fits after fitted before, and then what is
remembered after is right if what was remembered before is; `Reading.Brings` adds what follows then.
-/

namespace ShaderGraph

/-! ### Statements -/

/-- Some statements and those in their blocks. -/
def Statement.nested (ss : List Statement) : List Statement := collectIn (fun st => [st]) ss

/-- The local that a statement gives its value: once for each half of it. -/
def Statement.gives : Statement → List String
  | declare name _ (some _) _ _ => [name, name]
  | assign (.reference (.local name)) _ => [name]
  | _ => []

/-- The locals that some statements and those in their blocks give their values. -/
def Statement.givenIn (ss : List Statement) : List String := (nested ss).flatMap gives

theorem Statement.givenIn_append (ss ss' : List Statement) :
    givenIn (ss ++ ss') = givenIn ss ++ givenIn ss' := by
  rw [givenIn, nested, collectIn_append, List.flatMap_append]
  rfl

namespace StageBuild

variable {b : StageBuild} {st x : Statement}

/-- The statements in the open blocks of a stage, and those in their blocks. -/
def nested (b : StageBuild) : List Statement := b.collect fun st => [st]

theorem nested_add : (b.add st).nested.Perm (b.nested ++ st :: Statement.nested st.blocks) := by
  have added : (b.add st).nested.Perm (b.nested ++ st.collect fun st => [st]) := collect_add
  rwa [Statement.collect_eq] at added

theorem mem_nested_add : x ∈ (b.add st).nested ↔
    x ∈ b.nested ∨ x = st ∨ x ∈ Statement.nested st.blocks := by
  rw [nested_add.mem_iff, List.mem_append, List.mem_cons]

theorem nested_openBlock : b.openBlock.nested = b.nested := collect_openBlock

theorem nested_closeBlock :
    b.nested = Statement.nested b.innerStatements ++ b.closeBlock.nested := collect_closeBlock.symm

theorem mem_nested_closeBlock : x ∈ b.nested ↔
    x ∈ Statement.nested b.innerStatements ∨ x ∈ b.closeBlock.nested := by
  rw [nested_closeBlock, List.mem_append]

/-- The locals that the statements of a stage give their values; a declaration at the top of the
entry point does so for good. -/
def given (b : StageBuild) : List String :=
  (b.locals.filterMap Statement.own?).flatMap (fun n => [n, n]) ++ b.nested.flatMap Statement.gives

theorem count_given_add {n : String} : (b.add st).given.count n =
    b.given.count n + (st.gives.count n + (Statement.givenIn st.blocks).count n) := by
  have added : (b.add st).nested.Perm (b.nested ++ st :: Statement.nested st.blocks) := nested_add
  have nested := added.flatMap_right Statement.gives
  rw [given, given, List.count_append, List.count_append, nested.count_eq, locals_add,
    List.flatMap_append, List.flatMap_cons, List.count_append, List.count_append, Nat.add_assoc]
  rfl

theorem count_given_closeBlock (b : StageBuild) {n : String} : b.given.count n =
    (Statement.givenIn b.innerStatements).count n + b.closeBlock.given.count n := by
  rw [given, nested_closeBlock, List.flatMap_append, given, List.count_append, List.count_append,
    List.count_append]
  unfold Statement.givenIn closeBlock
  dsimp only
  omega

end StageBuild

/-! ### Names of inputs -/

/-- How the programs of a state refer to what they declare outside of their entry points. -/
def BuildState.naming (s : BuildState) : Naming where
  input? t
    | .uniform name _ group update _ =>
      let group := group.getD update.defaultGroup
      match s.namesOf (.group group), s.namesOf (.member ⟨name, group⟩) with
      | [_, inst], [member] => some (.uniform inst member)
      | _, _ => none
    | .meshAttribute name _ => (s.namesOf (.meshAttribute name)).head?.map .meshAttribute
    | .property name _ => ((s.stages.get t).properties.get? name).map fun v => .local v.2
    | .builtin b => some (.builtin b)
    | .storageBuffer name .. => (s.namesOf (.storage name)).head?.map .storage
    | _ => none
  texture? name :=
    match s.namesOf (.texture name) with
    | [texture, sampler] => some (texture, sampler)
    | _ => none
  varying? id := (s.namesOf (.varying id)).head?

/-- What has a name has the same one in another naming. -/
structure Naming.Within (a b : Naming) : Prop where
  input : ∀ {t n r}, a.input? t n = some r → b.input? t n = some r
  texture : ∀ {name r}, a.texture? name = some r → b.texture? name = some r
  varying : ∀ {id n}, a.varying? id = some n → b.varying? id = some n

theorem Naming.Within.trans {a b c : Naming} (h : a.Within b) (h' : b.Within c) : a.Within c :=
  ⟨fun hn => h'.input (h.input hn), fun hn => h'.texture (h.texture hn),
    fun hn => h'.varying (h.varying hn)⟩

/-- Items and properties keep their names. -/
theorem BuildState.Enters.naming {p : Plan} {s s' : BuildState} (h : s.Enters p s')
    (hp : ∀ {t name v}, (s.stages.get t).properties.get? name = some v →
      (s'.stages.get t).properties.get? name = some v) : s.naming.Within s'.naming where
  input {t n r} hr := by
    have kept : ∀ {i f}, (s.namesOf i).head?.map f = some r →
        (s'.namesOf i).head?.map f = some r := by
      intro i f hi
      rw [h.keep fun hn => by simp [hn] at hi]
      exact hi
    cases n with
    | uniform name type group update value =>
      simp only [BuildState.naming] at hr ⊢
      split at hr
      · next hg hm =>
        rw [h.keep (hg ▸ List.cons_ne_nil _ _), h.keep (hm ▸ List.cons_ne_nil _ _), hg, hm]
        exact hr
      · cases hr
    | meshAttribute name type => exact kept hr
    | storageBuffer name element count access => exact kept hr
    | property name type =>
      obtain ⟨v, hv, rfl⟩ := Option.map_eq_some_iff.1 hr
      exact Option.map_eq_some_iff.2 ⟨v, hp hv, rfl⟩
    | builtin b => exact hr
    | _ => cases hr
  texture {name r} hr := by
    simp only [BuildState.naming] at hr ⊢
    split at hr
    · next ht =>
      rw [h.keep (ht ▸ List.cons_ne_nil _ _), ht]
      exact hr
    · cases hr
  varying {id n} hn := by
    have entered : s.namesOf (.varying id) ≠ [] := by
      intro none
      simp [BuildState.naming, none] at hn
    simp only [BuildState.naming] at hn ⊢
    rw [h.keep entered]
    exact hn

/-! ### Readings -/

/-- What the programs of a plan consist of in the end. -/
structure Reading where
  plan : Plan
  roots : List NodeId
  active : List Stage
  names : Naming
  code : Code

namespace Reading

variable (R : Reading)

/-- An expression reads as what a node stands for. -/
def Shows (t : Stage) (around : List NodeId) (id : NodeId) (e : Expr) : Prop :=
  ∃ u, R.plan.unfolded R.names t around id = some u ∧ R.code.Reads t e u

/-- An expression reads as what a node stands for, as a value of type `target`. -/
def ShowsAs (t : Stage) (around : List NodeId) (id : NodeId) (target : ValueType) (e : Expr) :
    Prop :=
  ∃ u, R.plan.unfoldedAs R.names t around id target = some u ∧ R.code.Reads t e u

/-- A value that may be assigned to a varying: it reads as what the varying carries. -/
def Assigns (n : String) (value : Expr) : Prop :=
  ∃ u, R.code.carries n u ∧ R.code.Reads .vertex value u

/-- The vertex program writes what a node stands for to a varying. -/
def Writes (n : String) (around : List NodeId) (source : NodeId) : Prop :=
  ∃ value u, .assign (.reference (.varying .vertex n)) value ∈ R.code.body .vertex ∧
    R.plan.unfolded R.names .vertex around source = some u ∧ R.code.carries n u ∧
      R.code.Reads .vertex value u

/-- Under the name `n` the vertex program writes what the varying `id` carries under contexts that
it is met under. -/
def Carried (id : NodeId) (n : String) : Prop :=
  ∃ source around, (∃ name interpolation sampling,
    R.plan.node id = .ok (.varying source name interpolation sampling)) ∧
      R.plan.Reaches R.roots ⟨id, around⟩ ∧ R.Writes n around source

/-- A varying may carry what its source stands for where the varying is met. -/
def Carries : Prop := ∀ {id source name interpolation sampling around n u},
  R.plan.node id = .ok (.varying source name interpolation sampling) →
    R.plan.Reaches R.roots ⟨id, around⟩ → R.names.varying? id = some n →
      R.plan.unfolded R.names .vertex around source = some u → R.code.carries n u

/-- What a state has generated so far is a part of what is read. -/
structure Fits (s : BuildState) : Prop where
  names : s.naming.Within R.names
  locals : ∀ t ∈ R.active, (s.stages.get t).locals ⊆ R.code.locals t
  body : ∀ t ∈ R.active, (s.stages.get t).nested ⊆ R.code.body t

/-- What is assigned to varyings in some statements of a stage reads as what they carry. -/
def Assigned (t : Stage) (ss : List Statement) : Prop := t = .vertex → ∀ {n value},
  .assign (.reference (.varying .vertex n)) value ∈ ss → R.Assigns n value

/-- What a state remembers reads as what it is remembered for. -/
structure Recalls (s : BuildState) : Prop where
  bound : ∀ {k b}, s.cache.bound? k = some b → ∃ t frame around, k.stage = some t ∧
    b.frame = some frame ∧ s.frames.number? around = some frame ∧
      R.Shows t around k.node (Build.localName b.name)
  property : ∀ {t name v}, (s.stages.get t).properties.get? name = some v →
    ∃ type m owner, .declare v.2 type none m owner ∈ R.code.locals t
  written : ∀ {id n}, Build.isWritten s id = true → s.namesOf (.varying id) = [n] → R.Carried id n
  assigned : ∀ t, R.Assigned t (s.stages.get t).nested

/-- The state before a step under the context nodes `around`. -/
structure Begins (around : List NodeId) (env : Env) (s : BuildState) : Prop where
  lexical : (Law.lexical R.plan R.roots R.active around).inv env s
  asked : env.stage ∈ R.active
  loops : env.loops = []
  named : s.Named R.plan

/-- The locals that get their values between two states, in the open blocks and in the statements
`ss`, were free before, but for those in `ns`; and no name gets free. -/
structure Spends (t : Stage) (ss : List Statement) (ns : List String) (s s' : BuildState) : Prop where
  used : ∀ {u n}, (s.stages.get u).names.isUsed n = true → (s'.stages.get u).names.isUsed n = true
  given : ∀ u n, (s'.stages.get u).given.count n + (if u = t then (Statement.givenIn ss).count n else 0) ≤
    (s.stages.get u).given.count n + (if u = t then ns.count n else 0) +
      if (s'.stages.get u).names.isUsed n ∧ ¬(s.stages.get u).names.isUsed n then 2 else 0

/-- Generation goes on in the stage `t`; the statements `ss` belong to no open block, and the locals
`ns` get values for which their names were taken before. If what comes out of it fits, so did what
was there before, and what is remembered is right, provided that `C` is the case. -/
structure Goes (t : Stage) (ss : List Statement) (ns : List String) (C : Prop) (s s' : BuildState) :
    Prop where
  enters : s.Enters R.plan s'
  widens : s.Widens R.plan R.roots R.active s'
  blocks : ∀ u, (s'.stages.get u).openBlocks = (s.stages.get u).openBlocks
  output : ∀ u, (s'.stages.get u).output = (s.stages.get u).output
  spends : Spends t ss ns s s'
  fits : Statement.nested ss ⊆ R.code.body t → R.Fits s' → R.Fits s
  recalls : Statement.nested ss ⊆ R.code.body t → R.Fits s' → C → R.Recalls s → R.Recalls s'
  assigned : Statement.nested ss ⊆ R.code.body t → R.Fits s' → C → R.Recalls s →
    R.Assigned t (Statement.nested ss)

variable {R} {α β : Type} {around : List NodeId} {env : Env} {t : Stage} {ss ss' : List Statement}
  {ns ns' : List String} {C C' : Prop} {s s' s'' : BuildState} {id m : NodeId} {e : Expr}
  {target : ValueType}

theorem Assigned.nil : R.Assigned t [] := fun _ _ _ h => nomatch h

/-- What is remembered stays right when nothing else is remembered but varyings that are. -/
theorem Recalls.keep (h : R.Recalls s) (he : s.Enters R.plan s') (hf : s.frames.Extends s'.frames)
    (hb : ∀ k, s'.cache.bound? k = s.cache.bound? k)
    (hp : ∀ t, (s'.stages.get t).properties = (s.stages.get t).properties)
    (ha : ∀ t, R.Assigned t (s.stages.get t).nested → R.Assigned t (s'.stages.get t).nested)
    (hw : ∀ {id}, Build.isWritten s' id = true → Build.isWritten s id = true ∨
      ∀ n, s'.namesOf (.varying id) = [n] → R.Carried id n) : R.Recalls s' where
  bound hk := by
    obtain ⟨t, frame, around, stage, same, number, shows⟩ := h.bound (hb _ ▸ hk)
    exact ⟨t, frame, around, stage, same, FrameTable.number?_of_extends hf number, shows⟩
  property hv := h.property (hp _ ▸ hv)
  written {id n} hid hn := by
    refine (hw hid).elim (fun hid => h.written hid (he.keep ?_ ▸ hn)) fun hc => hc n hn
    -- a varying that is written was entered
    unfold Build.isWritten at hid
    cases hv : s.varyings.get? id with
    | some v =>
      rw [BuildState.namesOf, hv, Option.elim]
      exact List.cons_ne_nil _ _
    | none =>
      rw [hv] at hid
      cases hid
  assigned t := ha t (h.assigned t)

/-- What was collected for one stage changes, but not its declarations at the top. -/
theorem Fits.modify {f : StageBuild → StageBuild}
    (h : R.Fits { s with stages := s.stages.modify t f })
    (hp : ∀ b, (f b).properties = b.properties) (hl : ∀ b, (f b).locals = b.locals)
    (hn : t ∈ R.active → (f (s.stages.get t)).nested ⊆ R.code.body t →
      (s.stages.get t).nested ⊆ R.code.body t) : R.Fits s where
  names := by
    have enters : s.Enters R.plan { s with stages := s.stages.modify t f } :=
      .of_eq rfl rfl rfl rfl rfl
    refine (enters.naming fun {u name v} hv => ?_).trans h.names
    exact (s.stages.map_get_modify t u (g := StageBuild.properties) hp).symm ▸ hv
  locals u hu := by
    have := h.locals u hu
    rwa [s.stages.map_get_modify t u (g := StageBuild.locals) hl] at this
  body u hu := by
    have := h.body u hu
    rw [PerStage.get_modify] at this
    split at this
    · next he =>
      subst he
      exact hn hu this
    · exact this

/-- A statement that was added is one of the code, and so are those that it holds. -/
theorem Fits.add {st : Statement}
    (h : R.Fits { s with stages := s.stages.modify t fun b => b.add st }) (ht : t ∈ R.active) :
    st ∈ R.code.body t ∧ Statement.nested st.blocks ⊆ R.code.body t ∧ R.Fits s := by
  have body := h.body t ht
  rw [PerStage.get_modify, if_pos rfl] at body
  refine ⟨body (StageBuild.mem_nested_add.2 (.inr (.inl rfl))),
    fun x hx => body (StageBuild.mem_nested_add.2 (.inr (.inr hx))), ?_⟩
  refine h.modify (fun b => ?_) (fun b => StageBuild.locals_add)
    fun _ hn x hx => hn (StageBuild.mem_nested_add.2 (.inl hx))
  unfold StageBuild.add
  cases b.inner <;> rfl

theorem Fits.openBlock
    (h : R.Fits { s with stages := s.stages.modify t StageBuild.openBlock }) : R.Fits s :=
  h.modify (fun _ => rfl) (fun _ => rfl) fun _ hn => StageBuild.nested_openBlock ▸ hn

/-- A block was closed; its statements are in the code by other means. -/
theorem Fits.closeBlock (h : R.Fits { s with stages := s.stages.modify t StageBuild.closeBlock })
    (hn : Statement.nested (s.stages.get t).innerStatements ⊆ R.code.body t) : R.Fits s := by
  refine h.modify (fun _ => rfl) (fun _ => rfl) fun _ hn' x hx => ?_
  exact (StageBuild.mem_nested_closeBlock.1 hx).elim (fun h => hn h) fun h => hn' h

namespace Spends

theorem refl (s : BuildState) : Spends t [] [] s s :=
  ⟨id, fun u n => by simp [Statement.givenIn, Statement.nested, Statement.collectIn]⟩

theorem trans (h : Spends t ss ns s s') (h' : Spends t ss' ns' s' s'') :
    Spends t (ss ++ ss') (ns ++ ns') s s'' := by
  refine ⟨fun hu => h'.used (h.used hu), fun u n => ?_⟩
  have first := h.given u n
  have second := h'.given u n
  rw [Statement.givenIn_append, List.count_append, List.count_append]
  -- a name is taken once on the way
  have once : (if (s'.stages.get u).names.isUsed n ∧ ¬(s.stages.get u).names.isUsed n then 2 else 0) +
      (if (s''.stages.get u).names.isUsed n ∧ ¬(s'.stages.get u).names.isUsed n then 2 else 0) ≤
        if (s''.stages.get u).names.isUsed n ∧ ¬(s.stages.get u).names.isUsed n then 2 else 0 := by
    by_cases before : (s.stages.get u).names.isUsed n
    · simp [before, h.used before]
    · by_cases between : (s'.stages.get u).names.isUsed n
      · simp [before, between, h'.used between]
      · simp [before, between]
  by_cases he : u = t
  · rw [if_pos he, if_pos he] at first second ⊢
    omega
  · rw [if_neg he, if_neg he] at first second ⊢
    omega

/-- What is collected for the stages is the same, but for names that are taken. -/
theorem of_same (hu : ∀ {u n}, (s.stages.get u).names.isUsed n = true →
      (s'.stages.get u).names.isUsed n = true)
    (hl : ∀ u, (s'.stages.get u).locals = (s.stages.get u).locals)
    (hn : ∀ u, (s'.stages.get u).nested = (s.stages.get u).nested) : Spends t [] [] s s' := by
  refine ⟨hu, fun u n => ?_⟩
  have same : (s'.stages.get u).given = (s.stages.get u).given := by
    rw [StageBuild.given, hl, hn]
    rfl
  rw [same]
  simp [Statement.givenIn, Statement.nested, Statement.collectIn]

/-- Statements that get no locals their values spend nothing in any stage. -/
theorem elsewhere {t' : Stage} (h : Spends t [] [] s s') : Spends t' [] [] s s' := by
  refine ⟨h.used, fun u n => ?_⟩
  have given := h.given u n
  simp only [Statement.givenIn, Statement.nested, Statement.collectIn, List.flatMap_nil,
    List.count_nil, ite_self, Nat.add_zero] at given ⊢
  exact given

/-- What was collected for the stage changes by what it gives. -/
theorem modify {f : StageBuild → StageBuild} (h : Spends t ss ns s s')
    (hu : ∀ n, (s'.stages.get t).names.isUsed n = true → (f (s'.stages.get t)).names.isUsed n = true)
    (hg : ∀ n, (f (s'.stages.get t)).given.count n + (Statement.givenIn ss').count n ≤
      (s'.stages.get t).given.count n + (Statement.givenIn ss).count n + ns'.count n) :
    Spends t ss' (ns ++ ns') s { s' with stages := s'.stages.modify t f } := by
  refine ⟨fun {u n} hn => ?_, fun u n => ?_⟩
  · have used := h.used hn
    rw [PerStage.get_modify]
    split
    · next he =>
      subst he
      exact hu n used
    · exact used
  · have before := h.given u n
    by_cases he : u = t
    · subst he
      have change := hg n
      have taken : (if (s'.stages.get u).names.isUsed n ∧ ¬(s.stages.get u).names.isUsed n
          then 2 else 0) ≤ if (f (s'.stages.get u)).names.isUsed n ∧
            ¬(s.stages.get u).names.isUsed n then 2 else 0 := by
        by_cases used : (s'.stages.get u).names.isUsed n
        · simp [used, hu n used]
        · simp [used]
      rw [PerStage.get_modify, if_pos rfl, if_pos rfl, if_pos rfl, List.count_append]
      rw [if_pos rfl, if_pos rfl] at before
      omega
    · rw [PerStage.get_modify, if_neg he, if_neg he, if_neg he]
      rw [if_neg he, if_neg he] at before
      exact before

/-- A statement is added, with the blocks that it holds. -/
theorem add {st : Statement} (h : Spends t st.blocks ns s s') :
    Spends t [] (ns ++ st.gives) s { s' with stages := s'.stages.modify t fun b => b.add st } := by
  refine h.modify (fun n hn => ?_) fun n => ?_
  · have same : ((s'.stages.get t).add st).names = (s'.stages.get t).names := by
      unfold StageBuild.add
      cases (s'.stages.get t).inner <;> rfl
    exact same ▸ hn
  · rw [StageBuild.count_given_add]
    simp only [Statement.givenIn, Statement.nested, Statement.collectIn, List.flatMap_nil,
      List.count_nil]
    omega

/-- A block is closed; its statements are handed over. -/
theorem closeBlock (h : Spends t [] ns { s with stages := s.stages.modify t StageBuild.openBlock } s') :
    Spends t (s'.stages.get t).innerStatements ns s
      { s' with stages := s'.stages.modify t StageBuild.closeBlock } := by
  have opened : Spends t [] [] s { s with stages := s.stages.modify t StageBuild.openBlock } := by
    refine .of_same (fun {u n} hn => ?_) (fun u => ?_) fun u => ?_
    · have same := s.stages.map_get_modify t u (f := StageBuild.openBlock) (g := StageBuild.names)
        fun _ => rfl
      exact same.symm ▸ hn
    · exact s.stages.map_get_modify t u (g := StageBuild.locals) fun _ => rfl
    · exact s.stages.map_get_modify t u (g := StageBuild.nested) fun _ => StageBuild.nested_openBlock
  have closed : Spends t (s'.stages.get t).innerStatements (ns ++ []) s
      { s' with stages := s'.stages.modify t StageBuild.closeBlock } :=
    (opened.trans h).modify (fun _ hn => hn) fun n => by
      rw [(s'.stages.get t).count_given_closeBlock, Nat.add_comm]
      omega
  rwa [List.append_nil] at closed

/-- The local that is owed was taken before. -/
theorem claim {n : String} {f : StageBuild → StageBuild}
    (h : Spends t ss ns { s with stages := s.stages.modify t f } s')
    (hf : (f (s.stages.get t)).names = (s.stages.get t).names.reserve n)
    (hg : (f (s.stages.get t)).given = (s.stages.get t).given)
    (hn : (s.stages.get t).names.isUsed n = false) (hc : ∀ x, ns.count x ≤ [n, n].count x) :
    Spends t ss [] s s' := by
  have taken : (s'.stages.get t).names.isUsed n = true := by
    refine h.used ?_
    rw [PerStage.get_modify, if_pos rfl, hf, NameTable.isUsed_reserve, beq_self_eq_true, Bool.true_or]
  refine ⟨fun {u x} hx => h.used ?_, fun u x => ?_⟩
  · rw [PerStage.get_modify]
    split
    · next he =>
      subst he
      rw [hf, NameTable.isUsed_reserve, hx, Bool.or_true]
    · exact hx
  have given := h.given u x
  by_cases he : u = t
  · subst he
    rw [PerStage.get_modify, if_pos rfl, if_pos rfl, if_pos rfl, hf, hg, NameTable.isUsed_reserve] at given
    rw [if_pos rfl, if_pos rfl, List.count_nil]
    have owed := hc x
    by_cases hx : x = n
    · subst hx
      simp only [taken, hn, beq_self_eq_true, Bool.true_or, not_true_eq_false, and_false, if_false,
        Bool.false_eq_true, not_false_eq_true, and_true, if_true, List.count_cons_self,
        List.count_nil] at given owed ⊢
      omega
    · have other : (x == n) = false := by simpa using hx
      have none : [n, n].count x = 0 := List.count_eq_zero.2 (by simp [hx])
      rw [other, Bool.false_or] at given
      omega
  · rw [PerStage.get_modify, if_neg he, if_neg he, if_neg he] at given
    rw [if_neg he, if_neg he]
    exact given

end Spends

namespace Begins

theorem move (h : R.Begins around env s) (he : s.Enters R.plan s')
    (hw : s.Widens R.plan R.roots R.active s') : R.Begins around env s' :=
  ⟨@Law.mono _ _ [] _ _ h.lexical hw, h.asked, h.loops, he.named h.named⟩

theorem mono (h : R.Begins around env s) (hg : R.Goes t ss ns C s s') : R.Begins around env s' :=
  h.move hg.enters hg.widens

theorem plan (h : R.Begins around env s) : env.plan = R.plan := h.lexical.1

theorem framed (h : R.Begins around env s) : Framed R.plan s.frames env.frames around :=
  h.lexical.2.2.2

end Begins

namespace Goes

theorem trans (h : R.Goes t ss ns C s s') (h' : R.Goes t ss' ns' C' s' s'')
    (hc : Statement.nested ss ⊆ R.code.body t → R.Fits s' → C → R.Recalls s → C') :
    R.Goes t (ss ++ ss') (ns ++ ns') C s s'' := by
  have nested : Statement.nested (ss ++ ss') = Statement.nested ss ++ Statement.nested ss' :=
    Statement.collectIn_append _ _
  have both : Statement.nested (ss ++ ss') ⊆ R.code.body t →
      Statement.nested ss ⊆ R.code.body t ∧ Statement.nested ss' ⊆ R.code.body t := by
    rw [nested]
    exact List.append_subset.1
  refine ⟨h.enters.trans h'.enters, h.widens.trans h'.widens,
    fun u => (h'.blocks u).trans (h.blocks u), fun u => (h'.output u).trans (h.output u),
    h.spends.trans h'.spends, fun hn hf => ?_, fun hn hf hC hr => ?_, fun hn hf hC hr he n v hv => ?_⟩
  · exact h.fits (both hn).1 (h'.fits (both hn).2 hf)
  · have fits := h'.fits (both hn).2 hf
    exact h'.recalls (both hn).2 hf (hc (both hn).1 fits hC hr) (h.recalls (both hn).1 fits hC hr)
  · have fits := h'.fits (both hn).2 hf
    rw [nested, List.mem_append] at hv
    rcases hv with hv | hv
    · exact h.assigned (both hn).1 fits hC hr he hv
    · exact h'.assigned (both hn).2 hf (hc (both hn).1 fits hC hr) (h.recalls (both hn).1 fits hC hr)
        he hv

/-- The locals that are owed may be others. -/
theorem settle (h : R.Goes t ss ns C s s') (hs : Spends t ss ns' s s') : R.Goes t ss ns' C s s' :=
  { h with spends := hs }

/-- What goes well in one case does so in a special one. -/
theorem under (h : R.Goes t ss ns C s s') (hc : C' → C) : R.Goes t ss ns C' s s' :=
  ⟨h.enters, h.widens, h.blocks, h.output, h.spends, h.fits,
    fun hn hf hC => h.recalls hn hf (hc hC), fun hn hf hC => h.assigned hn hf (hc hC)⟩

/-- A step that adds no statement goes well in any stage if it does in one. -/
theorem elsewhere {t' : Stage} (h : R.Goes t [] [] C s s') : R.Goes t' [] [] C s s' :=
  ⟨h.enters, h.widens, h.blocks, h.output, h.spends.elsewhere, fun _ => h.fits (List.nil_subset _),
    fun _ => h.recalls (List.nil_subset _), fun _ _ _ _ => .nil⟩

/-- A step that does not state anything. -/
theorem of_bodies (h : s.Lists R.plan s') (hx : s.Widens R.plan R.roots R.active s')
    (hr : C → R.Recalls s → R.Recalls s') : R.Goes t [] [] C s s' := by
  have body : ∀ u, (s'.stages.get u).body = (s.stages.get u).body := fun u => congrFun h.bodies u
  have inner : ∀ u, (s'.stages.get u).inner = (s.stages.get u).inner :=
    fun u => congrArg EntryPoint.inner (body u)
  have outer : ∀ u, (s'.stages.get u).outer = (s.stages.get u).outer :=
    fun u => congrArg EntryPoint.outer (body u)
  have locals : ∀ u, (s'.stages.get u).locals = (s.stages.get u).locals :=
    fun u => congrArg EntryPoint.locals (body u)
  have nested : ∀ u, (s'.stages.get u).nested = (s.stages.get u).nested := by
    intro u
    rw [StageBuild.nested, StageBuild.collect, inner, outer]
    rfl
  refine ⟨h.toEnters, hx, fun u => ?_, fun u => congrArg EntryPoint.output (body u),
    .of_same (fun {u n} hn => ?_) locals nested, fun _ hf => ?_, fun _ _ => hr, fun _ _ _ _ => .nil⟩
  · rw [StageBuild.openBlocks, StageBuild.openBlocks, inner, outer]
  · have names : (s'.stages.get u).names = (s.stages.get u).names := congrArg EntryPoint.names (body u)
    exact names ▸ hn
  · have properties : ∀ u, (s'.stages.get u).properties = (s.stages.get u).properties :=
      fun u => congrArg EntryPoint.properties (body u)
    refine ⟨(h.toEnters.naming fun hv => properties _ ▸ hv).trans hf.names, fun u hu => ?_,
      fun u hu => ?_⟩
    · exact locals u ▸ hf.locals u hu
    · exact nested u ▸ hf.body u hu

/-- A step that states, remembers and writes nothing. -/
theorem of_lists (h : s.Lists R.plan s') (hx : s.Widens R.plan R.roots R.active s')
    (hb : ∀ k, s'.cache.bound? k = s.cache.bound? k)
    (hw : ∀ id, Build.isWritten s' id = Build.isWritten s id) : R.Goes t [] [] C s s' := by
  refine of_bodies h hx fun _ hr => hr.keep h.toEnters hx.frames hb
    (fun u => congrArg EntryPoint.properties (congrFun h.bodies u)) (fun u ha => ?_)
    fun hid => .inl (hw _ ▸ hid)
  have inner : (s'.stages.get u).inner = (s.stages.get u).inner :=
    congrArg EntryPoint.inner (congrFun h.bodies u)
  have outer : (s'.stages.get u).outer = (s.stages.get u).outer :=
    congrArg EntryPoint.outer (congrFun h.bodies u)
  rw [StageBuild.nested, StageBuild.collect, inner, outer]
  exact ha

theorem refl (s : BuildState) : R.Goes t [] [] C s s :=
  of_lists (.refl s) (.refl s) (fun _ => rfl) fun _ => rfl

/-- What was collected for the stage changes, but not the blocks that are open. -/
theorem modify {f : StageBuild → StageBuild} (h : R.Goes t ss ns C s s')
    (hb : (f (s'.stages.get t)).openBlocks = (s'.stages.get t).openBlocks)
    (ho : ∀ b, (f b).output = b.output) (hp : ∀ b, (f b).properties = b.properties)
    (hs : Spends t [] ns' s { s' with stages := s'.stages.modify t f })
    (hf : R.Fits { s' with stages := s'.stages.modify t f } →
      Statement.nested ss ⊆ R.code.body t ∧ R.Fits s')
    (ha : R.Fits { s' with stages := s'.stages.modify t f } → C → R.Recalls s →
      R.Assigned t ((s'.stages.get t).nested ++ Statement.nested ss) →
        R.Assigned t (f (s'.stages.get t)).nested) :
    R.Goes t [] ns' C s { s' with stages := s'.stages.modify t f } := by
  refine ⟨h.enters.trans (.of_eq rfl rfl rfl rfl rfl),
    h.widens.trans (.of_eq rfl rfl rfl), fun u => ?_, fun u => ?_, hs,
    fun _ fits => ?_, fun _ fits hC hr => ?_, fun _ _ _ _ => .nil⟩
  · rw [← h.blocks u, PerStage.get_modify]
    split
    · next he => exact he ▸ hb
    · rfl
  · exact (s'.stages.map_get_modify t u ho).trans (h.output u)
  · exact h.fits (hf fits).1 (hf fits).2
  · have recalls := h.recalls (hf fits).1 (hf fits).2 hC hr
    refine recalls.keep (.of_eq rfl rfl rfl rfl rfl) (.refl _) (fun _ => rfl)
      (fun u => s'.stages.map_get_modify t u hp) (fun u hu => ?_) .inl
    show R.Assigned u ((s'.stages.modify t f).get u).nested
    rw [PerStage.get_modify]
    split
    · next he =>
      subst he
      refine ha fits hC hr fun ht n v hv => ?_
      rcases List.mem_append.1 hv with hv | hv
      · exact hu ht hv
      · exact h.assigned (hf fits).1 (hf fits).2 hC hr ht hv
    · exact hu

/-- A statement is added, with the blocks that it holds. What it assigns to a varying is right. -/
theorem add (st : Statement) (h : R.Goes t st.blocks ns C s s') (ht : t ∈ R.active)
    (hw : R.Fits s' → C → R.Recalls s → t = .vertex → ∀ n v,
      st = .assign (.reference (.varying .vertex n)) v → R.Assigns n v) :
    R.Goes t [] (ns ++ st.gives) C s { s' with stages := s'.stages.modify t fun b => b.add st } := by
  have same : ∀ b : StageBuild, (b.add st).output = b.output ∧
      (b.add st).properties = b.properties := by
    intro b
    unfold StageBuild.add
    cases b.inner <;> exact ⟨rfl, rfl⟩
  refine h.modify StageBuild.openBlocks_add (fun b => (same b).1) (fun b => (same b).2) h.spends.add
    (fun hf => (hf.add ht).2) fun hf hC hr ha he n v hv => ?_
  rcases StageBuild.mem_nested_add.1 hv with hv | hv | hv
  · exact ha he (List.mem_append_left _ hv)
  · exact hw (hf.add ht).2.2 hC hr he n v hv.symm
  · exact ha he (List.mem_append_right _ hv)

/-- A block is closed; its statements are handed over. -/
theorem closeBlock (h : R.Goes t [] ns C { s with stages := s.stages.modify t StageBuild.openBlock } s') :
    R.Goes t (s'.stages.get t).innerStatements ns C s
      { s' with stages := s'.stages.modify t StageBuild.closeBlock } := by
  have none : Statement.nested [] ⊆ R.code.body t := List.nil_subset _
  have enters : s.Enters R.plan { s with stages := s.stages.modify t StageBuild.openBlock } :=
    .of_eq rfl rfl rfl rfl rfl
  have widens : s.Widens R.plan R.roots R.active
      { s with stages := s.stages.modify t StageBuild.openBlock } := .of_eq rfl rfl rfl
  have start : R.Recalls s → R.Recalls { s with stages := s.stages.modify t StageBuild.openBlock } := by
    refine fun hr => hr.keep enters (.refl _) (fun _ => rfl)
      (fun u => s.stages.map_get_modify t u fun _ => rfl) (fun u ha => ?_) .inl
    rwa [s.stages.map_get_modify t u (g := StageBuild.nested) fun _ => StageBuild.nested_openBlock]
  -- what was collected in the closed block and around it
  have collected : R.Fits { s' with stages := s'.stages.modify t StageBuild.closeBlock } →
      Statement.nested (s'.stages.get t).innerStatements ⊆ R.code.body t → C → R.Recalls s →
        R.Recalls s' := fun hf hn hC hr => h.recalls none (hf.closeBlock hn) hC (start hr)
  refine ⟨(enters.trans h.enters).trans (.of_eq rfl rfl rfl rfl rfl),
    (widens.trans h.widens).trans (.of_eq rfl rfl rfl),
    PerStage.openBlocks_closed h.blocks, fun u => ?_, h.spends.closeBlock, fun hn hf => ?_,
    fun hn hf hC hr => ?_, fun hn hf hC hr he n v hv => ?_⟩
  · have closed := s'.stages.map_get_modify t u (f := StageBuild.closeBlock)
      (g := StageBuild.output) fun _ => rfl
    have opened := s.stages.map_get_modify t u (f := StageBuild.openBlock)
      (g := StageBuild.output) fun _ => rfl
    exact closed.trans ((h.output u).trans opened)
  · exact (h.fits none (hf.closeBlock hn)).openBlock
  · refine (collected hf hn hC hr).keep (.of_eq rfl rfl rfl rfl rfl)
      (.refl _) (fun _ => rfl) (fun u => ?_) (fun u ha he n v hv => ha he ?_) .inl
    · exact s'.stages.map_get_modify t u fun _ => rfl
    · rw [PerStage.get_modify] at hv
      split at hv
      · next he => exact StageBuild.mem_nested_closeBlock.2 (.inr (he ▸ hv))
      · exact hv
  · exact (collected hf hn hC hr).assigned t he (StageBuild.mem_nested_closeBlock.2 (.inl hv))

end Goes

/-- Generation goes on and brings `P` about, provided that `C` is the case, what comes out of it
fits and what was remembered before is right. -/
structure Brings (R : Reading) (t : Stage) (ns : List String) (C P : Prop) (s s' : BuildState) :
    Prop where
  goes : R.Goes t [] ns C s s'
  gives : R.Fits s' → C → R.Recalls s → P

theorem Brings.after {P : Prop} (h : R.Goes t [] ns C s s') (h' : R.Brings t ns' C' P s' s'')
    (hc : R.Fits s' → C → R.Recalls s → C') : R.Brings t (ns ++ ns') C P s s'' := by
  have none : Statement.nested [] ⊆ R.code.body t := List.nil_subset _
  refine ⟨h.trans h'.goes fun _ => hc, fun hf hC hr => ?_⟩
  have fits := h'.goes.fits none hf
  exact h'.gives hf (hc fits hC hr) (h.recalls none fits hC hr)

theorem Brings.imp {P Q : Prop} (h : R.Brings t ns C P s s') (hp : C → P → Q) :
    R.Brings t ns C Q s s' :=
  ⟨h.goes, fun hf hC hr => hp hC (h.gives hf hC hr)⟩

/-- What follows from the state before when it fits may be taken for granted. -/
theorem Brings.known {P Q : Prop} (h : R.Brings t ns (C ∧ Q) P s s') (hq : R.Fits s → Q) :
    R.Brings t ns C P s s' := by
  have none : Statement.nested [] ⊆ R.code.body t := List.nil_subset _
  have goes := h.goes
  refine ⟨⟨goes.enters, goes.widens, goes.blocks, goes.output, goes.spends, goes.fits,
    fun hn hf hC => goes.recalls hn hf ⟨hC, hq (goes.fits hn hf)⟩,
    fun hn hf hC => goes.assigned hn hf ⟨hC, hq (goes.fits hn hf)⟩⟩, fun hf hC => ?_⟩
  exact h.gives hf ⟨hC, hq (goes.fits none hf)⟩

end Reading

end ShaderGraph
