import ShaderGraph.Proofs.Reading

/-!
# Steps of a reading

`Reading.Gives` is about a step of generation: if the state after it fits and what was remembered
before it is right, so is what is remembered after it, and the value of the step satisfies a
condition. For each way to compose steps there is a lemma that composes what they give.
-/

namespace ShaderGraph.Reading

open Build Law

variable {R : Reading} {α β : Type} {around : List NodeId} {env : Env} {ns ns' : List String}
  {C : Prop} {s s' : BuildState} {id m : NodeId}

/-- A step goes on, provided that `C` is the case, and gives the locals `ns` their values. If what
comes out of it fits and what was remembered before is right, its value satisfies `P`. -/
def Owes (R : Reading) (around : List NodeId) (env : Env) (ns : List String) (C : Prop)
    (step : Build α) (P : α → Prop) : Prop :=
  ∀ s, R.Begins around env s →
    Meets step env s (fun _ => True) fun a s' => R.Brings env.stage ns C (P a) s s'

/-- A step goes on that gives values to locals of its own only. -/
def Gives (R : Reading) (around : List NodeId) (env : Env) (C : Prop) (step : Build α)
    (P : α → Prop) : Prop := R.Owes around env [] C step P

/-- A step that hands over the statements of a block; `P` is about these. -/
def Leaves (R : Reading) (around : List NodeId) (env : Env) (ns : List String) (C : Prop)
    (step : Build (List Statement)) (P : List Statement → Prop) : Prop :=
  ∀ s, R.Begins around env s → Meets step env s (fun _ => True) fun ss s' =>
    R.Goes env.stage ss ns C s s' ∧
      (Statement.nested ss ⊆ R.code.body env.stage → R.Fits s' → C → R.Recalls s → P ss)

namespace Gives

variable {step : Build α} {P Q : α → Prop}

theorem pure {a : α} (h : C → P a) : R.Gives around env C (pure a) P :=
  fun s _ => ⟨.refl s, fun _ hC _ => h hC⟩

theorem bind {next : α → Build β} {P' : β → Prop} (h : R.Gives around env C step P)
    (hn : ∀ a, R.Gives around env (C ∧ P a) (next a) P') :
    R.Gives around env C (step >>= next) P' := by
  intro s hs
  rw [meets_bind]
  refine (h s hs).imp fun a s' hb => ?_
  refine (hn a s' (hs.mono hb.goes)).imp fun b s'' hb' => ?_
  exact .after hb.goes hb' fun hf hC hr => ⟨hC, hb.gives hf hC hr⟩

theorem imp (h : R.Gives around env C step P) (hp : ∀ a, C → P a → Q a) :
    R.Gives around env C step Q :=
  fun s hs => (h s hs).imp fun a _ hb => hb.imp (hp a)

/-- What a step gives in one case it gives in a special one. -/
theorem under {C' : Prop} (h : R.Gives around env C step P) (hc : C' → C) :
    R.Gives around env C' step P :=
  fun s hs => (h s hs).imp fun _ _ hb => ⟨hb.goes.under hc, fun hf hC => hb.gives hf (hc hC)⟩

theorem given (h : R.Gives around env True step P) : R.Gives around env C step P :=
  h.under fun _ => trivial

theorem map {f : α → β} {P' : β → Prop} (h : R.Gives around env C step P)
    (hf : ∀ a, C → P a → P' (f a)) : R.Gives around env C (f <$> step) P' := by
  intro s hs
  rw [meets_map]
  exact h.imp hf s hs

theorem discard (h : R.Gives around env C step P) :
    R.Gives around env C (discard step) fun _ => True := by
  intro s hs
  rw [meets_discard]
  exact h.imp (fun _ _ _ => trivial) s hs

theorem fail {c : Cause} : R.Gives around env C (fail c) P := fun _ _ => trivial

theorem ite {c : Prop} [Decidable c] {a b : Build α} (ha : c → R.Gives around env C a P)
    (hb : ¬c → R.Gives around env C b P) : R.Gives around env C (if c then a else b) P := by
  split
  · next h => exact ha h
  · next h => exact hb h

/-- A value that a check lets pass. -/
theorem check {c : Prop} [Decidable c] {cause : Cause} {next : Unit → Build α}
    (hn : ¬c → R.Gives around env C (next ()) P) :
    R.Gives around env C (if c then Build.fail cause >>= next else next ()) P :=
  ite (fun _ _ _ => trivial) hn

/-- A step that only looks. -/
theorem looking (h : Law.looking.Keeps env step) : R.Gives around env C step fun _ => True := by
  intro s _
  refine (h s trivial).mono (fun _ _ => trivial) fun _ s' hs' => ?_
  obtain rfl : s' = s := hs'
  exact ⟨.refl s', fun _ _ _ => trivial⟩

/-- No loop is open. -/
theorem outside (h : env.loops = [] → R.Gives around env C step P) : R.Gives around env C step P :=
  fun s hs => h hs.loops s hs

theorem located (h : R.Gives around env C step P) : R.Gives around env C (Build.located m step) P :=
  fun s hs => (h s hs).located fun _ h => h

theorem ofExcept {ε : Type} [Coe ε Cause] {r : Except ε α} (h : ∀ a, r = .ok a → C → P a) :
    R.Gives around env C (Build.ofExcept r) P := by
  cases r with
  | ok a => exact pure (h a rfl)
  | error e => exact fail

theorem resolve {next : NodeId → Build α}
    (h : ∀ m, R.plan.resolve id = .ok m → R.Gives around env C (next m) P) :
    R.Gives around env C (Build.resolve id >>= next) P := by
  intro s hs
  rw [meets_bind, meets_resolve, hs.plan]
  cases hr : R.plan.resolve id with
  | ok m => exact h m hr s hs
  | error e => trivial

theorem node {next : Node → Build α}
    (h : ∀ n, R.plan.node id = .ok n → R.Gives around env C (next n) P) :
    R.Gives around env C (Build.node id >>= next) P := by
  intro s hs
  rw [meets_bind, meets_node, hs.plan]
  cases hr : R.plan.node id with
  | ok n => exact h n hr s hs
  | error e => trivial

theorem structMembers {name : String} {next : List Member → Build α}
    (h : ∀ members, R.plan.structs.get? name = some members →
      R.Gives around env C (next members) P) :
    R.Gives around env C (Build.structMembers name >>= next) P := by
  intro s hs
  unfold Build.structMembers
  rw [meets_bind, meets_bind, meets_read, hs.plan]
  cases hr : R.plan.structs.get? name with
  | some members => exact h members hr s hs
  | none => trivial

theorem read {next : Env → Build α} (h : R.Gives around env C (next env) P) :
    R.Gives around env C (MonadReader.read >>= next) P := fun s hs => h s hs

theorem stage {next : Stage → Build α} (h : R.Gives around env C (next env.stage) P) :
    R.Gives around env C (Build.stage >>= next) P := fun s hs => h s hs

/-- What the steps of a list give, when each gives what a partial function does, up to `S`. -/
theorem mapM {γ : Type} {f : α → Build β} {g : α → Option γ} {S : β → γ → Prop} {xs : List α}
    (h : ∀ x ∈ xs, R.Gives around env True (f x) fun b => ∃ c, g x = some c ∧ S b c) :
    R.Gives around env C (xs.mapM f) fun bs => ∃ cs, xs.mapM g = some cs ∧ List.Forall₂ S bs cs := by
  induction xs generalizing C with
  | nil =>
    rw [List.mapM_nil]
    exact pure fun _ => ⟨[], rfl, .nil⟩
  | cons x rest ih =>
    rw [List.mapM_cons]
    refine (h x (.head _)).given.bind fun b => (ih fun x' hx' => h x' (.tail _ hx')).bind fun bs => ?_
    refine pure ?_
    rintro ⟨⟨-, c, hc, hb⟩, cs, hcs, hbs⟩
    refine ⟨c :: cs, ?_, .cons hb hbs⟩
    rw [List.mapM_cons, hc, Option.bind_eq_bind, Option.bind_some, hcs]
    rfl

theorem forM {f : α → Build PUnit} {xs : List α} {P : PUnit → Prop}
    (h : ∀ x ∈ xs, R.Gives around env True (f x) P) :
    R.Gives around env C (xs.forM f) fun _ => True := by
  induction xs generalizing C with
  | nil => exact pure fun _ => trivial
  | cons x rest ih => exact (h x (.head _)).given.bind fun _ => ih fun x' hx' => h x' (.tail _ hx')

/-! ### Tables and types -/

/-- A step that fills tables; what it enters has its names in the state that comes out. -/
theorem table {T : α → BuildState → Prop} (ht : (Law.tables True).Keeps env step)
    (h : ∀ s, R.Begins around env s → Meets step env s (fun _ => True) fun a s' =>
      s.Lists R.plan s' ∧ T a s') (hp : ∀ a s', T a s' → R.Fits s' → P a) :
    R.Gives around env C step P := by
  intro s hs
  refine ((h s hs).and ((ht s trivial).mono (fun _ _ => trivial) fun _ _ h => h)).imp ?_
  rintro a s' ⟨⟨lists, entered⟩, core⟩
  refine ⟨.of_lists lists ?_ (fun k => ?_) fun j => ?_, fun hf _ _ => hp a s' entered hf⟩
  · exact .of_core core
  · rw [core_cache core]
  · unfold isWritten
    rw [core_varyings core]

/-- A step that fills tables and gives nothing to look at. -/
theorem listed (ht : (Law.tables True).Keeps env step) (h : (Law.listing R.plan).Keeps env step) :
    R.Gives around env C step fun _ => True :=
  table (T := fun _ _ => True) ht (fun s hs => (h s hs.plan).imp fun _ _ hl => ⟨hl, trivial⟩)
    fun _ _ _ _ => trivial

theorem useType (type : ValueType) : R.Gives around env C (useType type) fun _ => True :=
  listed (useType_tables (absurd trivial) type) (useType_listing type)

/-- The type of a node is the one under the contexts around it. -/
theorem typeOf (hp : R.plan.OfValues) (id : NodeId) :
    R.Gives around env C (typeOf id) fun type => R.plan.typeIn around id = some type := by
  intro s hs
  have typed := @typeOf_lexical R.plan R.roots R.active around env hp id s hs.lexical
  refine ((typed.and (typeOf_listing id s hs.plan)).and (typeOf_still id s trivial)).imp ?_
  rintro type s' ⟨⟨⟨lexical, typed⟩, lists⟩, still⟩
  refine ⟨.of_lists lists lexical (fun k => ?_) (isWritten_of_still still), fun _ _ _ => typed⟩
  rw [show s'.cache = s.cache from congrArg Still.cache still]

/-! ### Statements and names -/

/-- A statement without blocks is added. What it assigns to a varying is right. -/
theorem add {st : Statement} (hb : st.blocks = []) (hg : st.gives = [])
    (hw : C → env.stage = .vertex → ∀ n v, st = .assign (.reference (.varying .vertex n)) v →
      R.Assigns n v) :
    R.Gives around env C (addStatement st) fun _ => st ∈ R.code.body env.stage := by
  intro s hs
  unfold addStatement
  rw [meets_modifyHere]
  have goes : R.Goes env.stage [] ([] ++ st.gives) C s
      { s with stages := s.stages.modify env.stage fun b => b.add st } :=
    .add st (hb ▸ .refl s) hs.asked fun _ hC _ => hw hC
  rw [hg] at goes
  exact ⟨goes, fun hf _ _ => (hf.add hs.asked).1⟩

/-- What was collected for the stage changes, but neither its statements nor its properties, and
names may be taken. -/
theorem aside {f : StageBuild → StageBuild}
    (hf : ∀ b, (f b).inner = b.inner ∧ (f b).outer = b.outer ∧ (f b).locals = b.locals ∧
      (f b).properties = b.properties ∧ (f b).output = b.output)
    (hu : ∀ n, (s.stages.get env.stage).names.isUsed n = true →
      (f (s.stages.get env.stage)).names.isUsed n = true) :
    R.Goes env.stage [] [] C s { s with stages := s.stages.modify env.stage f } := by
  have nested : ∀ b, (f b).nested = b.nested := by
    intro b
    rw [StageBuild.nested, StageBuild.collect, (hf b).1, (hf b).2.1]
    rfl
  refine .modify (.refl s) ?_ (fun b => (hf b).2.2.2.2) (fun b => (hf b).2.2.2.1) ?_ (fun fits => ?_)
    fun _ _ _ ha => ?_
  · rw [StageBuild.openBlocks, (hf _).1, (hf _).2.1]
    rfl
  · refine .of_same (fun {u n} hn => ?_) (fun u => s.stages.map_get_modify env.stage u fun b => (hf b).2.2.1)
      fun u => s.stages.map_get_modify env.stage u nested
    rw [PerStage.get_modify]
    split
    · next he =>
      subst he
      exact hu n hn
    · exact hn
  · refine ⟨List.nil_subset _, fits.modify (fun b => (hf b).2.2.2.1) (fun b => (hf b).2.2.1) ?_⟩
    exact fun _ hn => nested _ ▸ hn
  · rw [nested]
    exact fun he _ _ hv => ha he (List.mem_append_left _ hv)

/-- The program of a stage declares a varying. -/
theorem mark : R.Gives around env C
    (modifyHere fun b => { b with varyings := appendNew b.varyings id }) fun _ => True :=
  fun _ _ => ⟨aside (fun _ => ⟨rfl, rfl, rfl, rfl, rfl⟩) fun _ hn => hn, fun _ _ _ => trivial⟩

/-- A name that was free is taken, and what follows gives a local its value under it. -/
theorem claimed {name : String} {f : StageBuild → StageBuild} {P : Prop}
    (hf : ∀ b, (f b).inner = b.inner ∧ (f b).outer = b.outer ∧ (f b).locals = b.locals ∧
      (f b).properties = b.properties ∧ (f b).output = b.output)
    (hn : (f (s.stages.get env.stage)).names = (s.stages.get env.stage).names.reserve name)
    (free : (s.stages.get env.stage).names.isTaken s.globals name = false)
    (hc : ∀ n, ns.count n ≤ [name, name].count n)
    (h : R.Brings env.stage ns C P { s with stages := s.stages.modify env.stage f } s') :
    R.Brings env.stage [] C P s s' := by
  have none : Statement.nested [] ⊆ R.code.body env.stage := List.nil_subset _
  have first : R.Goes env.stage [] [] C s { s with stages := s.stages.modify env.stage f } :=
    aside hf fun n hu => hn ▸ isUsed_reserve_of_isUsed hu
  have given : (f (s.stages.get env.stage)).given = (s.stages.get env.stage).given := by
    rw [StageBuild.given, StageBuild.nested, StageBuild.collect, (hf _).1, (hf _).2.1, (hf _).2.2.1]
    rfl
  rw [NameTable.isTaken, Bool.or_eq_false_iff] at free
  refine ⟨(first.trans h.goes fun _ _ hC _ => hC).settle (h.goes.spends.claim hn given free.1 hc),
    fun hf hC hr => h.gives hf hC ?_⟩
  exact first.recalls none (h.goes.fits none hf) hC hr

/-- A local is declared under a numbered name, and what follows gives it the rest of its value. -/
theorem declaring {type : ValueType} {init : Option Expr} {kind : Mutability}
    {next : String → Build α} {P : α → Prop} (owed : String → List String)
    (hc : ∀ name n, (Statement.gives (.declare name type init kind none) ++ owed name).count n ≤
      [name, name].count n)
    (hn : ∀ name, R.Owes around env (owed name)
      (C ∧ .declare name type init kind none ∈ R.code.body env.stage) (next name) P) :
    R.Gives around env C (declareTemp type init kind >>= next) P := by
  intro s hs
  unfold declareTemp
  rw [meets_bind, meets_bind]
  refine (useType (C := C) type s hs).imp fun _ s₁ brings => ?_
  rw [meets_bind]
  refine meets_claimTemp fun name counter free => ?_
  let taken : StageBuild → StageBuild := fun b =>
    { b with names := (s₁.stages.get env.stage).names.reserve name, tempCounter := counter }
  let s₂ : BuildState := { s₁ with stages := s₁.stages.modify env.stage taken }
  let st : Statement := .declare name type init kind none
  have added : R.Goes env.stage [] st.gives C s₂
      { s₂ with stages := s₂.stages.modify env.stage fun b => b.add st } :=
    .add st (.refl s₂) hs.asked fun _ _ _ _ _ _ h => nomatch (show st = _ from h)
  have hs₂ : R.Begins around env s₂ :=
    (hs.mono brings.goes).move (.of_eq rfl rfl rfl rfl rfl) (.of_eq rfl rfl rfl)
  refine (hn name _ (hs₂.mono added)).imp fun a s₃ rest => ?_
  have tail := Brings.after added rest fun hf hC _ => ⟨hC, (hf.add hs.asked).1⟩
  have whole : R.Brings env.stage [] C (P a) s₁ s₃ :=
    claimed (f := taken) (fun _ => ⟨rfl, rfl, rfl, rfl, rfl⟩) rfl free (hc name) tail
  exact .after brings.goes whole fun _ hC _ => hC

/-- The name of a value is remembered. -/
theorem bindValue {name : String} (h : C → R.Shows env.stage around m (localName name)) :
    R.Gives around env C (bindValue m name) fun _ => True := by
  intro s hs
  let b : BoundName := ⟨name, (s.stages.get env.stage).currentBlock, some (Frame.current env.frames)⟩
  let s' : BuildState := { s with cache := s.cache.bind env.scope m (some env.stage) b }
  have enters : s.Enters R.plan s' := .of_eq rfl rfl rfl rfl rfl
  have keeps : R.Fits s' → R.Fits s := fun hf => ⟨hf.names, hf.locals, hf.body⟩
  have spends : Spends env.stage [] [] s s' := .of_same id (fun _ => rfl) fun _ => rfl
  show R.Brings env.stage [] C True s s'
  refine ⟨⟨enters, .of_eq rfl rfl rfl, fun _ => rfl, fun _ => rfl, spends, fun _ => keeps,
    fun _ _ hC hr => ⟨fun {k b'} hb => ?_, hr.property, hr.written, hr.assigned⟩, fun _ _ _ _ => .nil⟩,
    fun _ _ _ => trivial⟩
  rw [show s'.cache.bound? k = _ from NodeCache.bound?_bind] at hb
  split at hb
  · next hk =>
    obtain rfl : b = b' := Option.some.inj hb
    exact ⟨env.stage, _, around, by rw [hk]; rfl, rfl, hs.framed.number?, by rw [hk]; exact h hC⟩
  · exact hr.bound hb

/-- A name that is remembered for a node reads as what the node stands for. -/
theorem boundName? : R.Gives around env C (boundName? m) fun name =>
    ∀ n, name = some n → R.Shows env.stage around m (localName n) := by
  intro s hs
  unfold Build.boundName?
  rw [meets_bind, meets_read, meets_bind, meets_get]
  split
  · next bound hb =>
    rw [meets_bind]
    unfold isVisible
    rw [meets_bind, meets_read, meets_bind, meets_here]
    refine ⟨.refl s, fun _ _ hr n hn => ?_⟩
    obtain ⟨t, frame, around', stage, same, number, shows⟩ := hr.bound (k := keyAt env s m) hb
    obtain rfl : env.stage = t := Option.some.inj stage
    obtain ⟨visible, named⟩ := Option.ite_none_right_eq_some.1 hn
    obtain rfl : bound.name = n := Option.some.inj named
    -- the name was given under the contexts that are around now
    have current : frame = Frame.current env.frames := by
      by_contra other
      simp [same, other] at visible
    rw [current] at number
    have frames : s.frames.Regular := hs.lexical.2.2.1.frames
    exact frames.number?_inj number hs.framed.number? ▸ shows
  · exact ⟨.refl s, fun _ _ _ n hn => nomatch hn⟩

end Gives

/-! ### Blocks -/

/-- A block in which a step runs; `P` is about the statements that it holds in the end. -/
theorem Leaves.inBlock {step : Build Unit} {P : List Statement → Prop}
    (h : ∀ s, R.Begins around env s → (s.stages.get env.stage).inner ≠ [] →
      Meets step env s (fun _ => True) fun _ s' =>
        R.Brings env.stage ns C (P (s'.stages.get env.stage).innerStatements) s s') :
    R.Leaves around env ns C (inBlock step) P := by
  intro s hs
  unfold Build.inBlock
  rw [meets_bind, meets_modifyHere, meets_bind]
  let s₀ : BuildState := { s with stages := s.stages.modify env.stage StageBuild.openBlock }
  have enters : s.Enters R.plan s₀ := .of_eq rfl rfl rfl rfl rfl
  have widens : s.Widens R.plan R.roots R.active s₀ := .of_eq rfl rfl rfl
  have opened : (s₀.stages.get env.stage).inner ≠ [] := by
    rw [PerStage.get_modify, if_pos rfl]
    exact List.cons_ne_nil _ _
  refine (h s₀ (hs.move enters widens) opened).imp fun _ s' hb => ?_
  rw [meets_bind, meets_here, meets_bind, meets_modifyHere, meets_pure]
  refine ⟨hb.goes.closeBlock, fun hn hf hC hr => hb.gives (hf.closeBlock hn) hC ?_⟩
  refine hr.keep enters widens.frames (fun _ => rfl)
    (fun u => s.stages.map_get_modify env.stage u fun _ => rfl) (fun u ha => ?_) .inl
  rwa [s.stages.map_get_modify env.stage u (g := StageBuild.nested) fun _ => StageBuild.nested_openBlock]

/-- A block in which a step runs for its statements. -/
theorem Leaves.statements {step : Build Unit} {P : Unit → Prop} (h : R.Gives around env C step P) :
    R.Leaves around env [] C (Build.inBlock step) fun _ => True :=
  .inBlock fun s hs _ => (h s hs).imp fun _ _ hb => hb.imp fun _ _ => trivial

/-- A block that ends in an assignment of the value of a step to a local. -/
theorem Leaves.ending {step : Build Expr} {name : String} {P : Expr → Prop}
    (h : R.Gives around env C step P) :
    R.Leaves around env [name] C
      (Build.inBlock (step >>= fun e => addStatement (.assign (localName name) e))) fun ss =>
        ∃ e, ss.getLast? = some (.assign (localName name) e) ∧ P e := by
  refine .inBlock fun s hs opened => ?_
  rw [meets_bind]
  refine (h s hs).imp fun e s' brings => ?_
  unfold addStatement
  rw [meets_modifyHere]
  have added := brings.goes.add (.assign (localName name) e) hs.asked
    fun _ _ _ _ _ _ h => nomatch h
  refine ⟨added, fun hf hC hr => ⟨e, ?_, brings.gives (hf.add hs.asked).2.2 hC hr⟩⟩
  have still : (s'.stages.get env.stage).inner ≠ [] := by
    rw [Ne, StageBuild.inner_eq_nil_iff, brings.goes.blocks, ← StageBuild.inner_eq_nil_iff]
    exact opened
  rw [PerStage.get_modify, if_pos rfl]
  unfold StageBuild.innerStatements StageBuild.add
  cases hi : (s'.stages.get env.stage).inner with
  | nil => exact absurd hi still
  | cons block rest => exact List.getLast?_concat

/-- A statement that holds one block. -/
theorem Gives.hold {step : Build (List Statement)} {condition : Expr}
    {next : Unit → Build α} {P : List Statement → Prop} {Q : α → Prop}
    (h : R.Leaves around env [] C step P) (hn : ∀ u, R.Gives around env C (next u) Q) :
    R.Gives around env C
      (step >>= fun ss => addStatement (.branch condition ss none) >>= next) Q := by
  intro s hs
  rw [meets_bind]
  refine (h s hs).imp ?_
  rintro ss s' ⟨goes, -⟩
  rw [meets_bind]
  unfold addStatement
  rw [meets_modifyHere]
  let st : Statement := .branch condition ss none
  have added : R.Goes env.stage [] [] C s
      { s' with stages := s'.stages.modify env.stage fun b => b.add st } :=
    Goes.add st ((List.append_nil ss).symm ▸ goes) hs.asked fun _ _ _ _ _ _ h => nomatch h
  exact (hn () _ (hs.mono added)).imp fun a s'' brings => .after added brings fun _ hC _ => hC

/-- A branch that holds two blocks. -/
theorem Owes.branch {condition : Expr} {t e : Build (List Statement)} {next : Unit → Build α}
    {P₁ P₂ : List Statement → Prop} {Q : α → Prop} (ht : R.Leaves around env ns C t P₁)
    (he : R.Leaves around env ns' C e P₂)
    (hn : R.Gives around env
      (C ∧ ∃ ss ss', .branch condition ss (some ss') ∈ R.code.body env.stage ∧ P₁ ss ∧ P₂ ss')
      (next ()) Q) :
    R.Owes around env (ns ++ ns') C (t >>= fun t => e >>= fun e =>
      addStatement (.branch condition t (some e)) >>= next) Q := by
  intro s hs
  rw [meets_bind]
  refine (ht s hs).imp ?_
  rintro ss s₁ ⟨goes₁, first⟩
  rw [meets_bind]
  refine (he s₁ (hs.mono goes₁)).imp ?_
  rintro ss' s₂ ⟨goes₂, second⟩
  rw [meets_bind]
  unfold addStatement
  rw [meets_modifyHere]
  let st : Statement := .branch condition ss (some ss')
  have both : R.Goes env.stage (ss ++ ss') (ns ++ ns') C s s₂ :=
    goes₁.trans goes₂ fun _ _ hC _ => hC
  have added := Goes.add st both hs.asked fun _ _ _ _ _ _ h => nomatch h
  rw [show st.gives = [] from rfl, List.append_nil] at added
  refine (hn _ (hs.mono added)).imp fun a s₃ brings => ?_
  have whole := Brings.after added brings fun hf hC hr => by
    -- when the branch is a part of the code, so is what stands in its blocks
    obtain ⟨own, blocks, fits₂⟩ := hf.add hs.asked
    have split : Statement.nested (ss ++ ss') ⊆ R.code.body env.stage := blocks
    rw [Statement.nested, Statement.collectIn_append] at split
    obtain ⟨here₁, here₂⟩ := List.append_subset.1 split
    have fits₁ := goes₂.fits here₂ fits₂
    refine ⟨hC, ss, ss', own, first here₁ fits₁ hC hr, second here₂ fits₂ hC ?_⟩
    exact goes₁.recalls here₁ fits₁ hC hr
  rwa [List.append_nil] at whole

/-! ### Contexts and scopes -/

/-- A change that the entry points do not see, before a step. -/
theorem Brings.ofLists {P : Prop} {t : Stage} {s'' : BuildState} (hl : s.Lists R.plan s')
    (hx : s.Widens R.plan R.roots R.active s')
    (hb : ∀ k, s'.cache.bound? k = s.cache.bound? k) (hv : s'.varyings = s.varyings)
    (h : R.Brings t [] True P s' s'') : R.Brings t [] True P s s'' := by
  refine .after (.of_lists hl hx hb fun id => ?_) h fun _ _ _ => trivial
  unfold isWritten
  rw [hv]

/-- What a context node refers to is generated inside it. -/
theorem Gives.inContext {step : Build α} {inner : NodeId} {values : List (String × NodeId)}
    {P : α → Prop} (hn : R.plan.node m = .ok (.context inner values))
    (h : ∀ frame, R.Gives (m :: around) (inside env frame values) True step P) :
    R.Gives around env True (inContext m values step) P := by
  intro s hs
  rw [meets_inContext]
  have lists : s.Lists R.plan
      { s with frames := (s.frames.extend (Frame.current env.frames) m).2 } :=
    ⟨.of_eq rfl rfl rfl rfl rfl, rfl⟩
  have inner := h (s.frames.extend (Frame.current env.frames) m).1 _
    ⟨lexical_inside hn hs.lexical, hs.asked, hs.loops, lists.named hs.named⟩
  exact inner.imp fun a s' hb => .ofLists lists .extend (fun _ => rfl) rfl hb

/-- A context value goes on at the value that is lent, or at its own. -/
theorem Gives.withContextValue {step : NodeId → Build α} {key : String} {fallback : Option NodeId}
    {P : α → Prop} (h : ∀ c outer frames, (R.plan.lookup? key around = some (c, outer) ∨
        R.plan.lookup? key around = none ∧ fallback = some c ∧ outer = around) →
      R.Gives outer { env with frames := frames } True (step c) P) :
    R.Gives around env True (withContextValue key fallback step) P := by
  intro s hs
  rw [meets_withContextValue]
  rcases lexical_lent key hs.lexical with ⟨hf, hp⟩ | ⟨c, frames, outer, hf, hp, inner⟩
  · rw [hf]
    cases fallback with
    | none => trivial
    | some c => exact h c around env.frames (.inr ⟨hp, rfl, rfl⟩) s hs
  · rw [hf]
    exact h c outer frames (.inl hp) s ⟨inner, hs.asked, hs.loops, hs.named⟩

/-- A step inside the scope of a cache node. -/
theorem Gives.inCacheScope {step : Build α} {shares : Bool} {P : α → Prop}
    (h : ∀ scope, R.Gives around { env with scope := scope } True step P) :
    R.Gives around env True (cacheScope m shares >>= fun scope => inScope scope step) P := by
  intro s hs
  rw [meets_bind, meets_cacheScope, meets_inScope]
  have lists : s.Lists R.plan { s with cache := (s.cache.scopeFor env.scope m shares).2 } :=
    ⟨.of_eq rfl rfl rfl rfl rfl, rfl⟩
  have widens : s.Widens R.plan R.roots R.active
      { s with cache := (s.cache.scopeFor env.scope m shares).2 } := .of_eq rfl rfl rfl
  have begins := hs.move lists.toEnters widens
  have inner := h (s.cache.scopeFor env.scope m shares).1 _
    ⟨begins.lexical, begins.asked, begins.loops, begins.named⟩
  refine inner.imp fun a s' hb => .ofLists lists widens (fun _ => ?_) rfl hb
  exact NodeCache.bound?_of_records NodeCache.records_scopeFor

end ShaderGraph.Reading
