import ShaderGraph.Proofs.FoundTypes
import ShaderGraph.Proofs.Numerals
import ShaderGraph.Proofs.ProgramNames
import ShaderGraph.Proofs.SuppliedNodes

/-!
# Struct values, members and elements

Code puts structs together, takes members of them and takes elements of arrays, vectors and matrices.
`BuildState.Grants` says that such an expression is right: a struct value has one argument for each
member of its layout, in order and of the type of the member; a member is one that the layout has; and
the literal of a constant index lies within what is known of the number of elements. What an
expression is taken from is code of a node, under the contexts around it, and of the type that was
found for it (`BuildState.Denotes`).

`Law.granting` says that the code which a build collects stays right.
-/

namespace ShaderGraph

/-! ### Accesses in code -/

namespace Expr

mutual

/-- The struct values, members and elements in an expression, itself among them. -/
def accesses : Expr → List Expr
  | literal .. | reference _ => []
  | construct (.struct name) args => construct (.struct name) args :: accessesIn args
  | construct _ args | math _ args | call _ args => accessesIn args
  | operator _ left right | remainder left right => left.accesses ++ right.accesses
  | index base i => index base i :: (base.accesses ++ i.accesses)
  | unary _ e | swizzle e _ | address e => e.accesses
  | member e name => member e name :: e.accesses
  | select condition whenTrue whenFalse =>
    condition.accesses ++ (whenTrue.accesses ++ whenFalse.accesses)
  | sample _ _ uv level => uv.accesses ++ optionAccesses level

/-- The accesses in some expressions. -/
def accessesIn : List Expr → List Expr
  | [] => []
  | e :: rest => e.accesses ++ accessesIn rest

/-- The accesses in an expression, if there is one. -/
def optionAccesses : Option Expr → List Expr
  | none => []
  | some e => e.accesses

end

theorem accessesIn_eq (es : List Expr) : accessesIn es = es.flatMap accesses := by
  induction es with
  | nil => rfl
  | cons e rest ih => rw [accessesIn, ih, List.flatMap_cons]

/-- What is no access itself has those of its parts. -/
theorem accesses_eq {e : Expr} (h : e.isAccess = false) : e.accesses = e.parts.flatMap accesses := by
  cases e with
  | construct type args =>
    cases type with
    | struct name => cases h
    | _ => exact accessesIn_eq args
  | math m args | call f args => exact accessesIn_eq args
  | select c t e => simp [accesses, parts]
  | sample t s uv level => cases level <;> simp [accesses, optionAccesses, parts]
  | member | index => cases h
  | operator | remainder | unary | swizzle | address => simp [accesses, parts]
  | literal | reference => rfl

end Expr

namespace Statement

/-- The accesses in a statement, apart from its blocks. -/
def ownAccesses : Statement → List Expr
  | declare _ _ init _ _ => Expr.optionAccesses init
  | assign place value | update place _ value => place.accesses ++ value.accesses
  | call _ args => Expr.accessesIn args
  | jump _ => []
  | branch condition _ _ => condition.accesses
  | loop _ _ start _ stop _ _ => start.accesses ++ stop.accesses

/-- The accesses in some statements, in their blocks as well. -/
def accessesIn (ss : List Statement) : List Expr := collectIn ownAccesses ss

end Statement

/-- The accesses in the entry point of a stage. -/
def StageBuild.accesses (b : StageBuild) : List Expr :=
  Statement.accessesIn b.locals ++
    (b.collect Statement.ownAccesses ++ Expr.optionAccesses b.output)

theorem StageBuild.accesses_of_body {b b' : StageBuild} (h : b'.body = b.body) :
    b'.accesses = b.accesses := by
  have locals : b'.locals = b.locals := congrArg EntryPoint.locals h
  have inner : b'.inner = b.inner := congrArg EntryPoint.inner h
  have outer : b'.outer = b.outer := congrArg EntryPoint.outer h
  have output : b'.output = b.output := congrArg EntryPoint.output h
  unfold accesses collect
  rw [locals, inner, outer, output]

/-- The accesses in the entry point of a program. -/
def Program.accesses (prog : Program) : List Expr :=
  Statement.accessesIn prog.locals ++
    (Statement.accessesIn prog.body ++ Expr.optionAccesses prog.output)

/-! ### Accesses that are right -/

/-- The literal of a constant index with the given values, as a whole number: if it is known how many
elements there are, the number of one of them; otherwise it is negative for values down from minus one. -/
def Expr.InBounds (i : Expr) (count? : Option UInt32) (values : List Float) : Prop :=
  ∃ kind, (kind = .int ∨ kind = .uint) ∧ i = .literal kind (values.headD 0) ∧
    ∃ z : ℤ, kind.numeral? (Dialect.literal kind (values.headD 0)) = some (z : ℚ) ∧
      (z < 0 ↔ count? = none ∧ kind = .int ∧ values.headD 0 ≤ -1) ∧
      ∀ count ∈ count?, z < count.toNat

/-- If the index node `i` is constant, its code is a literal that a value of type `t` allows. -/
def Plan.Bounded (p : Plan) (t : ValueType) (i : NodeId) (x : Expr) : Prop :=
  ∀ j type values, p.resolve i = .ok j → p.node j = .ok (.const type values) →
    x.InBounds (Build.elementCount? t) values

namespace BuildState

variable {p : Plan} {s s' s'' : BuildState} {frame : FrameId} {id : NodeId} {e : Expr}
  {t : ValueType} {n : Node}

/-- The code of a node under some contexts: what a visit to it gave, or a place of it that something
is assigned to. -/
inductive Codes (p : Plan) (s : BuildState) (frame : FrameId) : NodeId → Expr → Prop
  | visit {v : Visit} {e : Expr} : v ∈ s.visits → v.code = some e →
      Frame.current v.frames = frame → Codes p s frame v.key.node e
  | buffer {m : NodeId} {name : String} {element : ValueType} {count : Option UInt32}
      {access : Access} (emitted : String) :
      p.node m = .ok (.storageBuffer name element count access) →
      Codes p s frame m (.reference (.storage emitted))
  | member {m base b : NodeId} {name struct : String} {e : Expr} :
      p.node m = .ok (.member base name) → p.resolve base = .ok b → Codes p s frame b e →
      s.types.get? (b, frame) = some (.struct struct) → p.HasMember struct name →
      Codes p s frame m (.member e name)
  | index {m base b i : NodeId} {e x : Expr} {t : ValueType} :
      p.node m = .ok (.index base i) → p.resolve base = .ok b → Codes p s frame b e →
      s.types.get? (b, frame) = some t → p.Bounded t i x → Codes p s frame m (.index e x)
  | split {m base b : NodeId} {components : String} {e : Expr} (cs : List Component) :
      p.node m = .ok (.split base components) → p.resolve base = .ok b → Codes p s frame b e →
      Codes p s frame m (.swizzle e cs)

/-- An expression is code of the node that is built in the place of `id`, of the type that was
found for it. -/
def Denotes (p : Plan) (s : BuildState) (frame : FrameId) (id : NodeId) (e : Expr)
    (t : ValueType) : Prop :=
  ∃ m, p.resolve id = .ok m ∧ s.Codes p frame m e ∧ s.types.get? (m, frame) = some t

/-- An expression is code of a node, converted to a type. -/
def Supplies (p : Plan) (s : BuildState) (frame : FrameId) (id : NodeId) (t : ValueType)
    (e : Expr) : Prop :=
  ∃ code found, s.Denotes p frame id code found ∧ code.coerce found t = .ok e

/-- Struct values, members and elements that are right as code of a node under some contexts. -/
inductive Fulfils (p : Plan) (s : BuildState) (frame : FrameId) (id : NodeId) : Expr → Prop
  | construct {layout : NodeId} {values : List NodeId} {name : String} {members : List Member}
      {args : List Expr} :
      p.node id = .ok (.struct layout values) → s.types.get? (id, frame) = some (.struct name) →
      p.structs.get? name = some members → members.length = values.length →
      List.Forall₂ (fun v arg => s.Supplies p frame v.1 v.2 arg)
        (values.zip (members.map Member.type)) args →
      Fulfils p s frame id (.construct (.struct name) args)
  | member {base : NodeId} {name struct : String} {e : Expr} :
      p.node id = .ok (.member base name) → s.Denotes p frame base e (.struct struct) →
      p.HasMember struct name → Fulfils p s frame id (.member e name)
  | index {base i : NodeId} {e x : Expr} {t index : ValueType} :
      p.node id = .ok (.index base i) → s.Denotes p frame base e t →
      s.Supplies p frame i index x → (index = .int ∨ index = .uint) → p.Bounded t i x →
      Fulfils p s frame id (.index e x)

/-- An access is right as code of some node. -/
def Grants (p : Plan) (s : BuildState) (e : Expr) : Prop := ∃ frame id, s.Fulfils p frame id e

/-- What holds when a node was visited: an element is right as code of that node, and what is
assigned to is a place of the target. -/
def Heeds (p : Plan) (s : BuildState) (frame : FrameId) (id : NodeId) (code : Option Expr) :
    Node → Prop
  | .index .. => ∀ e ∈ code, s.Fulfils p frame id e
  | .assign target .. => ∃ e t, s.Denotes p frame target e t
  | _ => True

/-- All accesses in the code that was collected are right, and so is what was visited. -/
structure Granted (p : Plan) (s : BuildState) : Prop where
  code : ∀ stage, ∀ e ∈ (s.stages.get stage).accesses, s.Grants p e
  visits : ∀ v ∈ s.visits, ∀ n, p.node v.key.node = .ok n →
    s.Heeds p (Frame.current v.frames) v.key.node v.code n

/-! ### Growth -/

/-- Types are found and visits logged, and the code that is collected stays right. -/
structure Furthers (p : Plan) (s s' : BuildState) : Prop where
  finds : s.Finds p s'
  visits : s.visits ⊆ s'.visits
  granted : s.Granted p → s'.Granted p

section

variable (ht : ∀ {k t}, s.types.get? k = some t → s'.types.get? k = some t)
  (hv : s.visits ⊆ s'.visits)

include ht hv

theorem Codes.mono (h : s.Codes p frame id e) : s'.Codes p frame id e := by
  induction h with
  | visit mem code current => exact .visit (hv mem) code current
  | buffer emitted hn => exact .buffer emitted hn
  | member hn hb _ found has ih => exact .member hn hb ih (ht found) has
  | index hn hb _ found bounded ih => exact .index hn hb ih (ht found) bounded
  | split cs hn hb _ ih => exact .split cs hn hb ih

theorem Denotes.mono (h : s.Denotes p frame id e t) : s'.Denotes p frame id e t := by
  obtain ⟨m, hm, code, found⟩ := h
  exact ⟨m, hm, code.mono ht hv, ht found⟩

theorem Supplies.mono (h : s.Supplies p frame id t e) : s'.Supplies p frame id t e := by
  obtain ⟨code, found, denotes, he⟩ := h
  exact ⟨code, found, denotes.mono ht hv, he⟩

theorem Fulfils.mono (h : s.Fulfils p frame id e) : s'.Fulfils p frame id e := by
  cases h with
  | construct hn found layout same args =>
    exact .construct hn (ht found) layout same (args.imp fun _ _ h => h.mono ht hv)
  | member hn base has => exact .member hn (base.mono ht hv) has
  | index hn base i int const => exact .index hn (base.mono ht hv) (i.mono ht hv) int const

theorem Grants.mono (h : s.Grants p e) : s'.Grants p e := by
  obtain ⟨frame, id, right⟩ := h
  exact ⟨frame, id, right.mono ht hv⟩

theorem Heeds.mono {code : Option Expr} (h : s.Heeds p frame id code n) :
    s'.Heeds p frame id code n := by
  cases n with
  | index => exact fun e he => (h e he).mono ht hv
  | assign =>
    obtain ⟨e, t, denotes⟩ := h
    exact ⟨e, t, denotes.mono ht hv⟩
  | _ => trivial

end

namespace Furthers

theorem grants (h : s.Furthers p s') (he : s.Grants p e) : s'.Grants p e :=
  he.mono h.finds.types h.visits

theorem refl (s : BuildState) : s.Furthers p s := ⟨.refl s, List.Subset.refl _, id⟩

theorem trans (h : s.Furthers p s') (h' : s'.Furthers p s'') : s.Furthers p s'' :=
  ⟨h.finds.trans h'.finds, List.Subset.trans h.visits h'.visits, h'.granted ∘ h.granted⟩

/-- Code is added that is right, and so are the visits that are logged. -/
theorem of_code (finds : s.Finds p s') (visits : s.visits ⊆ s'.visits)
    (code : ∀ stage, ∀ e ∈ (s'.stages.get stage).accesses,
      e ∈ (s.stages.get stage).accesses ∨ s.Grants p e)
    (logged : ∀ v ∈ s'.visits, v ∈ s.visits ∨ ∀ n, p.node v.key.node = .ok n →
      s'.Heeds p (Frame.current v.frames) v.key.node v.code n) : s.Furthers p s' := by
  refine ⟨finds, visits, fun h => ⟨fun stage e he => ?_, fun v hv => ?_⟩⟩
  · have right : s.Grants p e := (code stage e he).elim (h.code stage e) id
    exact right.mono finds.types visits
  · rcases logged v hv with hv | heeds
    · exact fun n hn => (h.visits v hv n hn).mono finds.types visits
    · exact heeds

/-- What leaves the code of the entry points alone. -/
theorem of_same (finds : s.Finds p s') (visits : s'.visits = s.visits)
    (bodies : s'.bodies = s.bodies) : s.Furthers p s' :=
  of_code finds (visits ▸ List.Subset.refl _)
    (fun stage _ he => .inl (StageBuild.accesses_of_body (congrFun bodies stage) ▸ he))
    fun _ hv => .inl (visits ▸ hv)

/-- A visit is logged that is right. -/
theorem visit {v : Visit} (h : ∀ n, p.node v.key.node = .ok n →
    s.Heeds p (Frame.current v.frames) v.key.node v.code n) :
    s.Furthers p { s with visits := v :: s.visits } := by
  refine of_code (.of_eq rfl rfl rfl rfl) (List.subset_cons_self _ _) (fun _ _ he => .inl he) ?_
  intro w hw
  rcases List.mem_cons.1 hw with rfl | hw
  · refine .inr fun n hn => Heeds.mono ?_ ?_ (h n hn)
    · exact id
    · exact List.subset_cons_self w s.visits
  · exact .inl hw

/-- What was collected for one stage changes. -/
theorem modify {stage : Stage} {f : StageBuild → StageBuild}
    (h : ∀ e ∈ (f (s.stages.get stage)).accesses,
      e ∈ (s.stages.get stage).accesses ∨ s.Grants p e) :
    s.Furthers p { s with stages := s.stages.modify stage f } := by
  refine of_code (.of_eq rfl rfl rfl rfl) (List.Subset.refl _) (fun other e he => ?_)
    fun _ hv => .inl hv
  rw [PerStage.get_modify] at he
  split at he
  · next same =>
    subst same
    exact h e he
  · exact .inl he

end Furthers

end BuildState

/-- What generation keeps to while the code that is collected stays right. -/
def Law.granting (p : Plan) : Law where
  inv env s := (env.plan = p ∧ env.typing = []) ∧ s.Coherent p ∧
    (∃ around, Framed p s.frames env.frames around) ∧ s.Granted p
  rel _ := BuildState.Furthers p
  ends _ := True
  refl := .refl
  trans := .trans
  mono hi hr := by
    obtain ⟨surroundings, coherent, ⟨around, framed⟩, granted⟩ := hi
    exact ⟨surroundings, hr.finds.coherent coherent, ⟨around, framed.mono hr.finds.frames⟩,
      hr.granted granted⟩
  loops _ hi := hi
  ordinary _ := trivial
  located _ := trivial

/-- What neither logs visits nor changes what is collected for entry points keeps to. -/
def Law.uncollecting (p : Plan) : Law where
  inv env _ := env.plan = p
  rel _ s s' := s'.visits = s.visits ∧ s'.bodies = s.bodies
  ends _ := True
  refl _ := ⟨rfl, rfl⟩
  trans h h' := ⟨h'.1.trans h.1, h'.2.trans h.2⟩
  mono hi _ := hi
  loops _ hi := hi
  ordinary _ := trivial
  located _ := trivial

namespace Build

open Law BuildState

variable {p : Plan} {env : Env} {s s' : BuildState} {α : Type}

/-! ### Steps that add no code -/

theorem inv_of_furthers (hi : (Law.granting p).inv env s) (h : s.Furthers p s') :
    (Law.granting p).inv env s' := @Law.mono (.granting p) env [] s s' hi h

theorem granting_finding (hi : (Law.granting p).inv env s) :
    ∃ around, (Law.finding p around []).inv env s := by
  obtain ⟨surroundings, coherent, ⟨around, framed⟩, -⟩ := hi
  exact ⟨around, surroundings, coherent, framed⟩

/-- The law of finding types, with what was collected, is this law. -/
theorem granting_of_finding {around : List NodeId} (hf : (Law.finding p around []).inv env s)
    (granted : s.Granted p) : (Law.granting p).inv env s :=
  ⟨hf.1, hf.2.1, ⟨around, hf.2.2⟩, granted⟩

theorem granting_inside {id inner : NodeId} {values : List (String × NodeId)}
    (hi : (Law.granting p).inv env s) (hn : p.node id = .ok (.context inner values)) :
    s.Furthers p { s with frames := (s.frames.extend (Frame.current env.frames) id).2 } ∧
      (Law.granting p).inv (inside env (s.frames.extend (Frame.current env.frames) id).1 values)
        { s with frames := (s.frames.extend (Frame.current env.frames) id).2 } := by
  have grows : s.Furthers p { s with frames := (s.frames.extend (Frame.current env.frames) id).2 } :=
    .of_same .extend rfl rfl
  obtain ⟨around, inv⟩ := granting_finding hi
  exact ⟨grows, granting_of_finding (finding_inside hn inv) (grows.granted hi.2.2.2)⟩

theorem granting_lent {key : String} {c : NodeId} {outer : List Frame}
    (hi : (Law.granting p).inv env s) (hf : Frame.lookup? key env.frames = some (c, outer)) :
    (Law.granting p).inv { env with frames := outer } s := by
  obtain ⟨around, inv⟩ := granting_finding hi
  rcases finding_lent key inv with ⟨none, -⟩ | ⟨_, _, _, same, -, outside⟩
  · cases none.symm.trans hf
  · cases same.symm.trans hf
    exact granting_of_finding outside hi.2.2.2

theorem granting_scope {scope : ScopeId} {cache : NodeCache} (hi : (Law.granting p).inv env s) :
    s.Furthers p { s with cache := cache } ∧
      (Law.granting p).inv { env with scope := scope } { s with cache := cache } := by
  have grows : s.Furthers p { s with cache := cache } := .of_same (.of_eq rfl rfl rfl rfl) rfl rfl
  exact ⟨grows, inv_of_furthers hi grows⟩

theorem granting_within (stage : Stage) (hi : (Law.granting p).inv env s) :
    (Law.granting p).inv (within env stage) s := by
  unfold within
  split
  · exact hi
  · exact hi

/-- What changes tables, but no entry point, adds no code. -/
theorem furthers_of_lists (hc : s'.core = s.core) (hl : s.Lists p s') : s.Furthers p s' :=
  .of_same (.of_core hc) (congrArg Core.visits hc) hl.bodies

theorem meets_furthers {step : Build α} {post : α → BuildState → Prop}
    (ht : (Law.tables True).Keeps env step)
    (hl : Meets step env s (fun _ => True) fun a s' => s.Lists p s' ∧ post a s') :
    Meets step env s (fun _ => True) fun a s' => s.Furthers p s' ∧ post a s' :=
  ((ht s trivial).and hl).mono (fun _ _ => trivial) fun _ _ hr =>
    ⟨furthers_of_lists hr.1 hr.2.1, hr.2.2⟩

theorem granting_ofTables {step : Build α} (ht : (Law.tables True).Keeps env step)
    (hl : ∀ s, env.plan = p → Meets step env s (fun _ => True) fun _ s' => s.Lists p s') :
    (Law.granting p).Keeps env step := fun s hi =>
  (meets_furthers ht ((hl s hi.1.1).imp fun _ _ hr => ⟨hr, trivial⟩)).imp fun _ _ hr => hr.1

/-- What finds types adds no code. -/
theorem granting_ofFinding {step : Build α} (hf : ∀ around, (Law.finding p around []).Keeps env step)
    (hs : Law.typing.Keeps env step) (hl : (Law.listing p).Keeps env step) :
    (Law.granting p).Keeps env step := by
  intro s hi
  obtain ⟨around, inv⟩ := granting_finding hi
  refine (((hf around s inv).and (hs s trivial)).and (hl s hi.1.1)).imp fun _ s' hr => ?_
  exact .of_same hr.1.1.1 (congrArg Still.visits hr.1.2) hr.2.bodies

/-- The type of a node is found. -/
theorem typeOf_granting (c : NodeId) (hi : (Law.granting p).inv env s) :
    Meets (typeOf c) env s (fun _ => True) fun t s' => s.Furthers p s' ∧
      ∀ m, p.resolve c = .ok m → s'.types.get? (m, Frame.current env.frames) = some t := by
  obtain ⟨around, inv⟩ := granting_finding hi
  refine (((typeOf_finds c s inv).and (typeOf_still c s trivial)).and
    (typeOf_listing (p := p) c s hi.1.1)).imp fun t s' hr => ?_
  obtain ⟨⟨⟨⟨finds, -⟩, found⟩, still⟩, lists⟩ := hr
  refine ⟨.of_same finds (congrArg Still.visits still) lists.bodies, fun m hm => ?_⟩
  exact (typeIn?_of_get? (inv.2.2.mono finds.frames).number?).symm.trans (found m hm)

theorem registerFunction_granting (f : FunctionId) :
    (Law.granting p).Keeps env (registerFunction f) := by
  intro s hi
  obtain ⟨around, inv⟩ := granting_finding hi
  refine (((registerFunction_finds f s inv).and (registerFunction_still f s trivial)).and
    (registerFunction_listing f hi.1.1)).imp fun _ s' hr => ?_
  exact .of_same hr.1.1.1.1 (congrArg Still.visits hr.1.2) hr.2.1.bodies

theorem useFunction_granting (f : FunctionId) : (Law.granting p).Keeps env (useFunction f) :=
  granting_ofFinding (fun _ => useFunction_finds f) (useFunction_still f) (useFunction_listing f)

/-- What was collected for the current stage changes, but not the code. -/
theorem granting_modifyHere {f : StageBuild → StageBuild} (h : ∀ b, (f b).accesses = b.accesses) :
    (Law.granting p).Keeps env (modifyHere f) :=
  fun _ _ => .modify fun _ he => .inl (h _ ▸ he)

theorem claimLocal_granting (name : String) : (Law.granting p).Keeps env (claimLocal name) :=
  fun _ _ => meets_claimLocal fun _ _ => .modify fun _ he => .inl he

theorem releaseLocal_granting (name : String) : (Law.granting p).Keeps env (releaseLocal name) :=
  granting_modifyHere fun _ => rfl

theorem claimTemp_granting : (Law.granting p).Keeps env claimTemp :=
  fun _ _ => meets_claimTemp fun _ _ _ => .modify fun _ he => .inl he

theorem bindName_granting (id : NodeId) (name : String) (frame : Option FrameId) :
    (Law.granting p).Keeps env (bindName id name frame) :=
  .read (.bind .here fun _ _ _ => .of_same (.of_eq rfl rfl rfl rfl) rfl rfl)

/-- A property is declared without a value. -/
theorem property_granting (name : String) (type : ValueType) :
    (Law.granting p).Keeps env (buildProperty name type) := by
  refine .bind .here fun b => ?_
  split
  · exact .when (fun _ => .fail rfl) fun _ => .pure _
  have use : (Law.granting p).Keeps env (useType type) :=
    granting_ofTables (useType_tables (absurd trivial) type) (useType_listing type)
  refine .bind use fun _ => .bind (claimLocal_granting name) fun emitted => ?_
  refine .bind (granting_modifyHere fun b => ?_) fun _ => .pure _
  show Statement.accessesIn (b.locals ++ [_]) ++ _ = _
  unfold Statement.accessesIn
  rw [Statement.collectIn_append]
  exact congrArg (· ++ _) (List.append_nil _)

theorem granting_plain : (Law.granting p).Plain where
  registerUniform id name type group update value :=
    granting_ofTables (registerUniform_tables id name type group update value) fun _ hp =>
      (registerUniform_listing id name type group update value hp).imp fun _ _ hr => hr.1
  useUniform group u := granting_ofTables (useUniform_tables group u) (useUniform_listing group u)
  registerTexture name := granting_ofTables (registerTexture_tables name) fun _ _ =>
    (registerTexture_listing name).imp fun _ _ hr => hr.1
  useTexture name := granting_ofTables (useTexture_tables name) (useTexture_listing name)
  registerStorage name element count access _ :=
    meets_furthers (registerStorage_tables name element count access)
      (registerStorage_listing name element count access)
  useStorage name b hi hb :=
    (meets_furthers (useStorage_tables (absurd trivial) name b)
      ((useStorage_listing hi.1.1 hb).imp fun _ _ hr => ⟨hr, trivial⟩)).imp fun _ _ hr => hr.1
  registerAttribute name type := granting_ofTables (registerAttribute_tables name type) fun _ _ =>
    (registerAttribute_listing name type).imp fun _ _ hr => hr.1
  useAttribute name type _ :=
    granting_ofTables (useAttribute_tables name type) (useAttribute_listing name type)
  useBuiltin b := granting_ofTables (useBuiltin_tables b) (useBuiltin_listing b)
  property := property_granting
  useType type := granting_ofTables (useType_tables (absurd trivial) type) (useType_listing type)

/-! ### Varyings -/

section

variable {id source : NodeId} {name : Option String} {interpolation : Interpolation}
  {sampling : Option Sampling}

theorem enterVarying_uncollecting : (Law.uncollecting p).Keeps env
    (enterVarying id source name interpolation sampling) := by
  refine .bind .stage fun _ => .when (fun _ => .fail rfl) fun _ => .bind (.read (.pure env)) fun _ => ?_
  have typed : (Law.uncollecting p).Keeps env (typeOf source) := fun s hp =>
    ((typeOf_still source s trivial).mono (fun _ _ => trivial) fun _ _ hr => hr).and
      (typeOf_listing (p := p) source s hp) |>.imp
        fun _ _ hr => ⟨congrArg Still.visits hr.1, hr.2.bodies⟩
  have claimed : (Law.uncollecting p).Keeps env (claimVarying name) := by
    cases name <;> exact fun _ _ => ⟨rfl, rfl⟩
  refine .when (fun _ => .fail rfl) fun _ => .bind typed fun type => .when (fun _ => .fail rfl) fun _ => ?_
  exact .bind claimed fun emitted => .bind (fun _ _ => ⟨rfl, rfl⟩) fun _ => .pure _

/-- A varying has its entry in the table, but for its location. -/
theorem registerVarying_granting (hi : (Law.granting p).inv env s) :
    Meets (registerVarying id source name interpolation sampling) env s (fun _ => True) fun v s' =>
      s.Furthers p s' ∧ ∃ location, s'.varyings.get? id = some { v with location := location } := by
  obtain ⟨around, inv⟩ := granting_finding hi
  unfold registerVarying
  rw [meets_bind, meets_get]
  cases found : s.varyings.get? id with
  | some v => exact ⟨.refl s, v.location, found⟩
  | none =>
    have quiet : (Law.uncollecting p).Keeps env
        (enterVarying id source name interpolation sampling) := enterVarying_uncollecting
    refine ((enterVarying_finds inv found).and (quiet s hi.1.1)).imp ?_
    rintro v s' ⟨⟨⟨finds, -⟩, entered⟩, visits, bodies⟩
    exact ⟨.of_same finds visits bodies, v.location, entered⟩

theorem locateVarying_granting {v : VaryingEntry} {location : Option Nat}
    (hv : s.varyings.get? id = some { v with location := location }) :
    Meets (locateVarying id v) env s (fun _ => True) fun _ s' => s.Furthers p s' := by
  have quiet : (Law.uncollecting env.plan).Keeps env (locateVarying id v) := by
    intro s _
    unfold locateVarying
    rw [meets_modify]
    split <;> exact ⟨rfl, rfl⟩
  exact ((locateVarying_finds hv).and (quiet s rfl)).imp fun _ s' hr => .of_same hr.1 hr.2.1 hr.2.2

end

end Build

end ShaderGraph
